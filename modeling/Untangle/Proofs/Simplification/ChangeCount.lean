import Untangle.CallSites.Resolution
import Untangle.Initialization.ConstructorJunk
import Untangle.Initialization.StaticJunk
import Untangle.Proofs.Simplification.ExceptionFlow
import Untangle.Simplification.MethodPass

/-!
# Change counts of bodies

Whatever works on a body gives a number of changes along with the new body. The number is honest: it is
zero only if the body is the same as before, and a body that changed says so. A body that said so before
keeps saying so, and its limits are never lowered.

Taking out dead code also takes out labels that nothing refers to, without counting them. Its count is
honest nevertheless on bodies that were not changed before, because there every label is referred to.
-/

namespace Untangle

open List

variable {k index changes : Nat} {σ : Type} {l : Listing}

/-! ### Honest counts -/

/-- `k` changes lead from one state to another. Either there were none and the state is the same, or the
new state says that it was modified, and there were changes or the old state said so already. -/
def Honest {α : Type} (modified : α → Bool) (k : Nat) (a a' : α) : Prop :=
  k = 0 ∧ a' = a ∨ (0 < k ∨ modified a = true) ∧ modified a' = true

namespace Honest

variable {α : Type} {modified : α → Bool} {j : Nat} {a a' a'' : α}

theorem refl (modified : α → Bool) (a : α) : Honest modified 0 a a := .inl ⟨rfl, rfl⟩

theorem of_pos (hk : 0 < k) (h : modified a' = true) : Honest modified k a a' := .inr ⟨.inl hk, h⟩

theorem trans (h : Honest modified k a a') (h' : Honest modified j a' a'') : Honest modified (k + j) a a'' := by
  rcases h with ⟨rfl, rfl⟩ | ⟨hk, hm⟩
  · rwa [Nat.zero_add]
  · have hsum : 0 < k + j ∨ modified a = true := hk.imp_left fun hk => by omega
    rcases h' with ⟨rfl, rfl⟩ | ⟨-, hm'⟩
    · exact .inr ⟨hsum, hm⟩
    · exact .inr ⟨hsum, hm'⟩

/-- A state that says it was not modified is the one before. -/
theorem eq_of_modified_eq_false (h : Honest modified k a a') (hm : modified a' = false) : k = 0 ∧ a' = a := by
  rcases h with h | ⟨-, hm'⟩
  · exact h
  · rw [hm] at hm'
    cases hm'

/-- From a state that was not modified on, the count tells whether it is now. -/
theorem eq_zero_iff (h : Honest modified k a a') (hm : modified a = false) : k = 0 ↔ modified a' = false := by
  constructor
  · rintro rfl
    rcases h with ⟨-, rfl⟩ | ⟨hk | hm', -⟩
    · exact hm
    · cases hk
    · rw [hm] at hm'
      cases hm'
  · exact fun hm' => (h.eq_of_modified_eq_false hm').1

end Honest

namespace Body

variable {b b' : Body}

/-- `k` changes make one body of another: the count is honest, and the limits are no lower. -/
structure Rewritten (k : Nat) (b b' : Body) : Prop where
  stack : b.maxStack ≤ b'.maxStack
  locals : b.maxLocals ≤ b'.maxLocals
  honest : Honest isModified k b b'

theorem Rewritten.refl (b : Body) : b.Rewritten 0 b := ⟨UInt16.le_refl _, UInt16.le_refl _, .refl _ b⟩

theorem Rewritten.trans {b'' : Body} (h : Rewritten k b b') (h' : Rewritten j b' b'') : Rewritten (k + j) b b'' :=
  ⟨UInt16.le_trans h.stack h'.stack, UInt16.le_trans h.locals h'.locals, h.honest.trans h'.honest⟩

/-- Some changes, after which the code says that it was modified. -/
theorem rewritten_of_code (hk : 0 < k) (b : Body) {code : Listing} (h : code.modified = true) :
    Rewritten k b { b with code } :=
  ⟨UInt16.le_refl _, UInt16.le_refl _, .of_pos hk (by simp [isModified, h])⟩

/-- A change to the code and the ranges, after which the body says that it was modified. -/
theorem rewritten_of_dirty (hk : 0 < k) (b : Body) (code : Listing) (ranges : List Range) :
    Rewritten k b { b with code, ranges, dirty := true } :=
  ⟨UInt16.le_refl _, UInt16.le_refl _, .of_pos hk rfl⟩

/-! ### Going through the code -/

theorem sweep_rewritten (b : Body) (rule : (Label → Bool) → Rule) : Rewritten (b.sweep rule).1 b (b.sweep rule).2 := by
  unfold sweep
  dsimp only
  split
  · exact .refl b
  · rename_i hne _
    exact rewritten_of_code (Nat.pos_of_ne_zero hne) b rfl

theorem sweepWith_rewritten (b : Body) (rule : (Label → Bool) → σ → List Node → Node → σ × Option (List Node)) (s : σ) :
    Rewritten (b.sweepWith rule s).2.1 b (b.sweepWith rule s).2.2 := by
  unfold sweepWith
  dsimp only
  split
  · exact .refl b
  · rename_i hne _
    exact rewritten_of_code (Nat.pos_of_ne_zero hne) b rfl

theorem strip_rewritten (b : Body) (find? : StraightRun.Finder α) :
    Rewritten (b.strip find?).1.length b (b.strip find?).2 := by
  unfold strip
  split
  · exact .refl b
  · rename_i hne _
    exact rewritten_of_code (length_pos_iff.mpr hne) b rfl

theorem clean_rewritten (owners : List String) (b : Body) :
    Rewritten (ConstructorJunk.clean owners b).1 b (ConstructorJunk.clean owners b).2 := by
  unfold ConstructorJunk.clean
  dsimp only
  split
  · exact .refl b
  · split
    · exact .refl b
    · rename_i hne _
      exact rewritten_of_code (length_pos_iff.mpr hne) b rfl

/-! ### Chains of jumps -/

theorem redirect_rewritten (b : Body) (f : Label → Label) :
    Rewritten (b.redirect f true).1 b (b.redirect f true).2 := by
  simp only [redirect, if_true]
  split
  · rw [Listing.redirect_eq_self (by omega)]
    exact .refl b
  · exact rewritten_of_dirty (by omega) b _ _

theorem collapseRounds_rewritten (rounds changes : Nat) (b : Body) :
    ∃ k, (b.collapseRounds rounds changes).1 = changes + k ∧
      Rewritten k b (b.collapseRounds rounds changes).2 := by
  induction rounds generalizing changes b with
  | zero => exact ⟨0, rfl, .refl b⟩
  | succ rounds ih =>
    have hredirect := b.redirect_rewritten fun l => b.chainEnds.getD l l
    unfold collapseRounds
    dsimp only
    split
    · rename_i b' heq
      rw [heq] at hredirect
      exact ⟨0, rfl, hredirect⟩
    · rename_i changed b' _ heq
      rw [heq] at hredirect
      obtain ⟨k, hk, hrest⟩ := ih (changes + changed) b'
      exact ⟨changed + k, by rw [hk]; omega, hredirect.trans hrest⟩

theorem collapseJumpChains_rewritten (b : Body) : Rewritten b.collapseJumpChains.1 b b.collapseJumpChains.2 := by
  obtain ⟨k, hk, h⟩ := collapseRounds_rewritten (b.referenced.length + 2) 0 b
  rw [collapseJumpChains, hk, Nat.zero_add]
  exact h

/-! ### Dead code -/

/-- No node was removed, and something refers to every label. -/
structure Tidy (b : Body) : Prop where
  live : ∀ n ∈ b.nodes, n.live = true
  referenced : ∀ l ∈ labelsOf b.nodes, l ∈ b.referenced

theorem keep_modified (h : l.modified = true) (test : Node → Bool) : (l.keep test).2.modified = true := by
  unfold Listing.keep
  split
  · exact h
  · rfl

theorem keep_eq_self {test : Node → Bool} (h : ∀ n ∈ l.nodes, test n = true) : (l.keep test).2 = l := by
  unfold Listing.keep
  split
  · rfl
  · rename_i hgone
    exact absurd (countP_eq_zero.mpr fun n hn => by simp [h n hn]) hgone

theorem isModified_of_code (h : b.isModified = true) (hdirty : b'.dirty = b.dirty)
    (hcode : b.code.modified = true → b'.code.modified = true) : b'.isModified = true := by
  rw [isModified, Bool.or_eq_true] at h ⊢
  exact h.imp (hdirty ▸ ·) hcode

/-- Taking out labels counts nothing, and there is nothing to count where something refers to every
label. -/
theorem pruneLabels_rewritten (htidy : b.isModified = false → b.Tidy) : Rewritten 0 b b.pruneLabels.2 := by
  refine ⟨UInt16.le_refl _, UInt16.le_refl _, ?_⟩
  by_cases hold : b.isModified = true
  · exact .inr ⟨.inr hold, isModified_of_code hold rfl fun h => keep_modified h _⟩
  · have hkeep : (b.code.keep fun n => n.instr.label?.all b.referencedSet.contains).2 = b.code := by
      refine keep_eq_self fun n hn => ?_
      cases hl : n.instr.label? with
      | none => rfl
      | some l =>
        have href := (htidy (Bool.eq_false_iff.mpr hold)).referenced l
          (mem_labelsOf.mpr ⟨n, hn, Instruction.label?_eq_some.mp hl⟩)
        exact mem_referencedSet.mpr href
    refine .inl ⟨rfl, ?_⟩
    unfold pruneLabels
    dsimp only
    rw [hkeep]

/-- The nodes that count as dead. -/
def dead (b : Body) : List (Node × Bool) := b.reachability.filter fun (n, reached) => !n.isLabel && !reached

theorem withoutDead_rewritten (htidy : b.isModified = false → b.Tidy) : Rewritten b.dead.length b b.withoutDead := by
  refine ⟨UInt16.le_refl _, UInt16.le_refl _, ?_⟩
  unfold withoutDead
  dsimp only
  split
  · rename_i hgone
    by_cases hold : b.isModified = true
    · exact .inr ⟨.inr hold, hold⟩
    · -- every node is still there, so one that is dead would have to go
      have hdead : b.dead = [] := by
        by_contra hne
        obtain ⟨d, hd⟩ := exists_mem_of_ne_nil _ hne
        have hmem : d.1 ∈ b.nodes := by
          rw [← b.map_fst_reachability]
          exact mem_map_of_mem (mem_filter.mp hd).1
        rw [List.isEmpty_iff, map_eq_nil_iff, filter_eq_nil_iff] at hgone
        exact hgone d hd ((htidy (Bool.eq_false_iff.mpr hold)).live d.1 hmem)
      rw [hdead]
      exact .refl _ b
  · rename_i hgone
    have hdead : 0 < b.dead.length := by
      rw [length_pos_iff]
      rintro hdead
      rw [dead] at hdead
      rw [hdead] at hgone
      exact hgone rfl
    exact .of_pos hdead (by simp [isModified])

/-- Takes out the ranges that protect nothing, and counts them. -/
def withoutBarren (b : Body) : Nat × Body :=
  let ranges := b.ranges.filter fun r => !(b.realBetween r.start r.stop).isEmpty
  let dropped := b.ranges.length - ranges.length
  (dropped, { b with ranges, dirty := b.dirty || dropped != 0 })

theorem withoutBarren_rewritten (b : Body) : Rewritten b.withoutBarren.1 b b.withoutBarren.2 := by
  refine ⟨UInt16.le_refl _, UInt16.le_refl _, ?_⟩
  unfold withoutBarren
  dsimp only
  generalize hranges : b.ranges.filter (fun r => !(b.realBetween r.start r.stop).isEmpty) = ranges
  have hsub : ranges.Sublist b.ranges := hranges ▸ filter_sublist
  by_cases hdropped : b.ranges.length - ranges.length = 0
  · obtain rfl : ranges = b.ranges := hsub.eq_of_length (by have := hsub.length_le; omega)
    refine .inl ⟨hdropped, ?_⟩
    simp
  · exact .of_pos (by omega) (by simp [isModified, hdropped])

/-- Taking out dead code is taking out nodes, then ranges, then labels, of which the first two count. -/
theorem removeDeadCode_rewritten (htidy : b.isModified = false → b.Tidy) :
    Rewritten b.removeDeadCode.1 b b.removeDeadCode.2 := by
  have hrest := (withoutDead_rewritten htidy).trans b.withoutDead.withoutBarren_rewritten
  refine hrest.trans (pruneLabels_rewritten fun hm => ?_)
  have hsame := (hrest.honest.eq_of_modified_eq_false hm).2
  rw [hsame] at hm ⊢
  exact htidy hm

/-! ### Exception flow -/

open ExceptionFlow in
theorem restore?_rewritten (h : restore? b index = .ok (some b')) : Rewritten 1 b b' := by
  obtain ⟨_, _, _, _, -, -, rfl⟩ := restore?_eq_some h
  exact rewritten_of_dirty Nat.one_pos b _ _

open ExceptionFlow in
theorem dropPure?_rewritten (h : dropPure? b index = .ok (some b')) : Rewritten 1 b b' := by
  rcases dropPure?_eq_some h with rfl | ⟨_, _, -, -, -, -, -, -, rfl⟩
  · exact rewritten_of_dirty Nat.one_pos b _ _
  · exact rewritten_of_dirty Nat.one_pos b _ _

open ExceptionFlow in
theorem each_rewritten {undo? : Body → Nat → Except Error (Option Body)}
    (hundo : ∀ b b' index, undo? b index = .ok (some b') → Rewritten 1 b b') {steps changes' : Nat}
    (h : each undo? steps index changes b = .ok (changes', b')) : ∃ k, changes' = changes + k ∧ Rewritten k b b' := by
  induction steps generalizing index changes b with
  | zero =>
    cases h
    exact ⟨0, rfl, .refl _⟩
  | succ steps ih =>
    obtain ⟨undone, hu, h⟩ := bind_eq_ok.mp h
    cases undone with
    | none => exact ih h
    | some c =>
      obtain ⟨k, rfl, hrest⟩ := ih h
      exact ⟨1 + k, by omega, (hundo b c index hu).trans hrest⟩

open ExceptionFlow in
theorem restoreExceptionFlow_rewritten (h : b.restoreExceptionFlow = .ok (changes, b')) : Rewritten changes b b' := by
  obtain ⟨⟨_, c⟩, hrestored, h⟩ := bind_eq_ok.mp h
  obtain ⟨⟨_, d⟩, hdropped, h⟩ := bind_eq_ok.mp h
  obtain ⟨k, rfl, hc⟩ := each_rewritten (fun _ _ _ => restore?_rewritten) hrestored
  obtain ⟨j, rfl, hd⟩ := each_rewritten (fun _ _ _ => dropPure?_rewritten) hdropped
  have hundone := hc.trans hd
  dsimp only at h
  split at h
  · cases h
    rwa [show k + j = 0 by omega] at hundone
  · cases h
    -- some range was undone, so the body says that it was modified and any label may go
    have hmodified : d.isModified = true := by
      rcases hundone.honest with ⟨hk, -⟩ | ⟨-, hm⟩
      · exact absurd hk (by omega)
      · exact hm
    rw [Nat.zero_add, Nat.zero_add]
    exact hundone.trans (removeDeadCode_rewritten fun hm => by rw [hmodified] at hm; cases hm)

end Body

/-! ### Call sites -/

/-- A walk that changed nothing ends with what it started with, if a rule that does not apply keeps it. -/
theorem sweepWith_eq {rule : σ → List Node → Node → σ × Option (List Node)}
    (hrule : ∀ s s' passed n, rule s passed n = (s', none) → s' = s) (s : σ) (changes : Nat) (passed ns : List Node) :
    changes ≤ (sweepWith rule s changes passed ns).2.1 ∧
      ((sweepWith rule s changes passed ns).2.1 = changes → (sweepWith rule s changes passed ns).1 = s) := by
  induction ns generalizing s changes passed with
  | nil => exact ⟨Nat.le_refl _, fun _ => rfl⟩
  | cons n _ ih =>
    unfold sweepWith
    split
    · rename_i s' passed' _
      obtain ⟨hle, -⟩ := ih s' (changes + 1) passed'
      exact ⟨by omega, fun hk => by omega⟩
    · rename_i s' heq
      obtain rfl := hrule s s' passed n heq
      exact ih s' changes (n :: passed)

namespace CallSites

theorem rule_eq_none {owner : String} {known : List (Signature × Hints)} {base : UInt16} {p p' : Progress}
    {passed : List Node} {n : Node} (h : rule owner known base p passed n = (p', none)) : p' = p := by
  unfold rule at h
  dsimp only at h
  split at h
  · cases h
    rfl
  · cases h

theorem le_saturatingAdd (a b : UInt16) : a ≤ saturatingAdd a b := by
  have ha := a.toNat_lt
  rw [UInt16.le_iff_toNat_le, saturatingAdd, UInt16.toNat_ofNat']
  omega

theorem saturatingAdd_zero (a : UInt16) : saturatingAdd a 0 = a := by
  have ha := a.toNat_lt
  rw [saturatingAdd, UInt16.toNat_zero, Nat.add_zero, Nat.min_eq_left (by omega), UInt16.ofNat_toNat]

theorem resolveBody_rewritten (owner : String) (known : List (Signature × Hints)) (b : Body) :
    b.Rewritten (resolveBody owner known b).2.1 (resolveBody owner known b).2.2 := by
  unfold resolveBody
  generalize hstart : (⟨b.code.nextId, 0, 0, []⟩ : Progress) = start
  have hsweep := b.sweepWith_rewritten (fun _ => rule owner known b.maxLocals) start
  have hprogress : (b.sweepWith (fun _ => rule owner known b.maxLocals) start).2.1 = 0 →
      (b.sweepWith (fun _ => rule owner known b.maxLocals) start).1 = start := by
    have hkeeps : ∀ p p' passed n, rule owner known b.maxLocals p passed n = (p', none) → p' = p :=
      fun _ _ _ _ => rule_eq_none
    have hwalk := (sweepWith_eq hkeeps start 0 [] b.nodes).2
    unfold Body.sweepWith
    dsimp only
    split
    · rename_i heq
      rw [heq] at hwalk
      exact hwalk
    · exact fun hk => absurd hk ‹_›
  generalize b.sweepWith (fun _ => rule owner known b.maxLocals) start = result at hsweep hprogress
  obtain ⟨p, k, _⟩ := result
  refine ⟨UInt16.le_trans hsweep.stack (le_saturatingAdd _ _),
    UInt16.le_trans hsweep.locals (le_saturatingAdd _ _), ?_⟩
  rcases hsweep.honest with ⟨hk, hb⟩ | hm
  · obtain rfl : p = start := hprogress hk
    refine .inl ⟨hk, ?_⟩
    dsimp only at hb
    simp [hb, ← hstart, saturatingAdd_zero]
  · exact .inr hm

end CallSites

/-! ### Passes -/

namespace MethodPass

theorem ofTotal_rewritten {name : String} {f : Body → Nat × Body} (hf : b.Rewritten (f b).1 (f b).2)
    (h : (ofTotal name f).run b = .ok (changes, b')) : b.Rewritten changes b' := by
  have hrun : f b = (changes, b') := Except.ok.inj h
  rwa [hrun] at hf

/-- The count of a pass over bodies is honest. -/
theorem run_rewritten {p : MethodPass} (hp : p ∈ all) (htidy : b.isModified = false → b.Tidy)
    (h : p.run b = .ok (changes, b')) : b.Rewritten changes b' := by
  simp only [all, flowSimplification, mem_append, mem_cons, not_mem_nil, or_false] at hp
  rcases hp with (rfl | rfl | rfl | rfl | rfl | rfl) | rfl
  · exact ofTotal_rewritten (b.sweep_rewritten _) h
  · exact ofTotal_rewritten (b.sweep_rewritten _) h
  · exact ofTotal_rewritten (b.sweep_rewritten _) h
  · exact ofTotal_rewritten (b.sweep_rewritten _) h
  · exact ofTotal_rewritten b.collapseJumpChains_rewritten h
  · exact ofTotal_rewritten (Body.removeDeadCode_rewritten htidy) h
  · exact Body.restoreExceptionFlow_rewritten h

end MethodPass

end Untangle
