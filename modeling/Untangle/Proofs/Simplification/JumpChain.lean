import Std.Data.TreeMap.Lemmas
import Std.Data.TreeSet.Lemmas
import Untangle.Proofs.Code.WellFormed
import Untangle.Simplification.JumpChain

/-!
# Collapsing chains of jumps

A reference that is sent along its chain ends up where it was or at the target of a jump, and behind
the target of a jump there is an instruction. So bodies stay well-formed.
-/

namespace Untangle

variable {b : Body}

namespace JumpChain

/-- A function looked up in the table of its values on a set of labels. -/
theorem getElem?_graph {β : Type} (labels : Std.TreeSet Label) (f : Label → β) (l : Label) :
    (Std.TreeMap.ofList (labels.toList.map fun k => (k, f k)))[l]? = if l ∈ labels then some (f l) else none := by
  by_cases hl : l ∈ labels
  · rw [if_pos hl]
    refine Std.TreeMap.getElem?_ofList_of_mem Std.ReflCmp.compare_self ?_ ?_
    · rw [List.pairwise_map]
      exact labels.distinct_toList
    · exact List.mem_map.mpr ⟨l, Std.TreeSet.mem_toList.mpr hl, rfl⟩
  · rw [if_neg hl]
    simpa [Std.TreeSet.mem_toList] using hl

/-- Looking a label up and reading the listing give the same. -/
theorem lookUp_table (l : Listing) (labels : Std.TreeSet Label) (name : Label) :
    lookUp l (table l labels.toList) name = forwardsTo? l name := by
  unfold lookUp table
  rw [Std.TreeMap.get?_eq_getElem?, getElem?_graph]
  by_cases hm : name ∈ labels <;> simp [hm]

/-- What a label forwards to is the target of a jump. -/
theorem forwardsTo?_mem {l : Listing} (hl : l.Intact) {name next : Label} (h : forwardsTo? l name = some next) :
    next ∈ targetsOf l.nodes := by
  unfold forwardsTo? at h
  split at h
  · rename_i hc
    obtain ⟨n, hn, hc⟩ := Option.bind_eq_some_iff.mp hc
    split at h
    · cases h
    · cases h
      refine mem_targetsOf.mpr ⟨n, Listing.mem_of_realAt? hl hn, ?_⟩
      rw [Node.instr_of_content hc]
      simp [Instruction.targets]
  · cases h

/-- A chain ends where it starts or where one of its steps goes. -/
theorem follow_mem {next : Label → Option Label} {S : List Label} (hnext : ∀ l l', next l = some l' → l' ∈ S)
    {steps : Nat} {l e : Label} (h : follow next steps l = some e) : e = l ∨ e ∈ S := by
  fun_induction follow next steps l with
  | case1 => cases h
  | case2 =>
    cases h
    exact .inl rfl
  | case3 l steps _ htarget ih =>
    rcases ih h with rfl | he
    · exact .inr (hnext _ _ htarget)
    · exact .inr he

end JumpChain

open JumpChain

namespace Body

/-- A label stands for itself or for the target of a jump. -/
theorem chainEnds_getD (hb : b.code.Intact) (l : Label) :
    b.chainEnds.getD l l = l ∨ b.chainEnds.getD l l ∈ targetsOf b.nodes := by
  unfold chainEnds
  rw [Std.TreeMap.getD_eq_getD_getElem?, getElem?_graph]
  by_cases hm : l ∈ b.referencedSet
  · rw [if_pos hm]
    cases he : follow (lookUp b.code (table b.code b.referencedSet.toList)) (longest b.code) l with
    | none => exact .inl rfl
    | some e =>
      refine follow_mem (fun k k' hk => ?_) he
      rw [lookUp_table] at hk
      exact forwardsTo?_mem hb hk
  · rw [if_neg hm]
    exact .inl rfl

namespace WellFormed

/-- Sending all references along their chains once keeps a body well-formed. -/
theorem redirect_chainEnds (h : b.WellFormed) : (b.redirect (fun l => b.chainEnds.getD l l) true).2.WellFormed := by
  apply h.redirect
  · intro t ht
    rcases chainEnds_getD h.intact t with he | he
    · rw [he]
      exact h.lands t ht
    · exact h.lands _ he
  · intro r hr
    rcases chainEnds_getD h.intact r.handler with he | he
    · rw [he]
      exact (h.range_bound hr).2.2
    · exact (h.lands _ he).mem_labelsOf

theorem collapseRounds (h : b.WellFormed) (rounds changes : Nat) : (b.collapseRounds rounds changes).2.WellFormed := by
  induction rounds generalizing changes b with
  | zero => exact h
  | succ rounds ih =>
    have hr := h.redirect_chainEnds
    unfold Body.collapseRounds
    simp only
    split
    · rename_i b' heq
      rwa [heq] at hr
    · rename_i changed b' _ heq
      rw [heq] at hr
      exact ih hr (changes + changed)

theorem collapseJumpChains (h : b.WellFormed) : b.collapseJumpChains.2.WellFormed :=
  h.collapseRounds _ _

end WellFormed

end Body

end Untangle
