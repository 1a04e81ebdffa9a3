import Mathlib.Data.List.Perm.Subperm
import Untangle.Proofs.Simplification.JumpChain
import Untangle.Proofs.Simplification.Tidying

/-!
# Collapsing chains of jumps twice

A chain that ends takes no more steps than there are labels, since it comes to no label twice. So the limit
on its steps tells chains that end from those that go in circles. Sending every reference along its chain
once leaves nothing to send: the end of a chain stays an end, and the jumps of a circle stay as they are.
Labels that nothing refers to make no difference to any of this.
-/

namespace Untangle

open List Listing

variable {b : Body} {name t : Label}

theorem length_labelsOf (ns : List Node) : (labelsOf ns).length = ns.countP Node.isLabel := by
  rw [labelsOf, length_filterMap_eq_countP]
  rfl

namespace JumpChain

variable {next : Label → Option Label} {steps : Nat} {l e : Label}

/-! ### Following a chain -/

theorem follow_mono {more : Nat} (h : follow next steps l = some e) (hle : steps ≤ more) :
    follow next more l = some e := by
  induction steps generalizing more l with
  | zero => cases h
  | succ steps ih =>
    obtain ⟨more, rfl⟩ : ∃ k, more = k + 1 := ⟨more - 1, by omega⟩
    rw [follow] at h ⊢
    cases hl : next l with
    | none => rwa [hl] at h
    | some =>
      rw [hl] at h
      exact ih h (by omega)

theorem next_of_follow (h : follow next steps l = some e) : next e = none := by
  fun_induction follow next steps l with
  | case1 => cases h
  | case2 l steps hl =>
    cases h
    exact hl
  | case3 l steps _ hl ih => exact ih h

theorem follow_of_next_eq_none (h : next l = none) : follow next (steps + 1) l = some l := by
  rw [follow, h]

/-- The labels that a chain passes before its end, none of them twice. -/
theorem exists_path (h : follow next steps l = some e) :
    ∃ path : List Label, path.Nodup ∧ (∀ k ∈ path, next k ≠ none ∧ follow next steps k = some e) ∧
      follow next (path.length + 1) l = some e := by
  induction steps generalizing l with
  | zero => cases h
  | succ steps ih =>
    by_cases hshort : follow next steps l = some e
    · obtain ⟨path, hnodup, hpath, hfollow⟩ := ih hshort
      exact ⟨path, hnodup, fun k hk => ⟨(hpath k hk).1, follow_mono (hpath k hk).2 (by omega)⟩, hfollow⟩
    · have hl := h
      rw [follow] at hl
      cases hnext : next l with
      | none =>
        rw [hnext] at hl
        cases hl
        exact ⟨[], .nil, by simp, follow_of_next_eq_none hnext⟩
      | some =>
        rw [hnext] at hl
        obtain ⟨path, hnodup, hpath, hfollow⟩ := ih hl
        -- a label that came again would have been as near to the end the first time
        have hfresh : l ∉ path := fun hmem => hshort (hpath l hmem).2
        refine ⟨l :: path, nodup_cons.mpr ⟨hfresh, hnodup⟩, ?_, ?_⟩
        · intro k hk
          rcases mem_cons.mp hk with rfl | hk
          · exact ⟨by simp [hnext], h⟩
          · exact ⟨(hpath k hk).1, follow_mono (hpath k hk).2 (by omega)⟩
        · rw [follow, hnext]
          exact hfollow

/-- Two chains are the same if every step of one is a step of the other. -/
theorem follow_congr {next' : Label → Option Label} {P : Label → Prop} (hsame : ∀ k, P k → next' k = next k)
    (hkeeps : ∀ k k', P k → next k = some k' → P k') (hl : P l) : follow next' steps l = follow next steps l := by
  induction steps generalizing l with
  | zero => rfl
  | succ steps ih =>
    rw [follow, follow, hsame l hl]
    cases hnext : next l with
    | none => rfl
    | some target => exact ih (hkeeps l target hl hnext)

/-! ### In a listing -/

theorem longest_eq {l : Listing} (h : l.Intact) : longest l = (labelsOf l.nodes).length + 2 := by
  unfold longest
  rw [h.strands, single, length_labelsOf]
  cases l.nodes <;> simp

theorem mem_labelsOf_of_forwardsTo? (h : b.WellFormed) (hname : forwardsTo? b.code name ≠ none) :
    name ∈ labelsOf b.nodes := by
  by_contra hno
  refine hname ?_
  rw [forwardsTo?, realAt?, h.fromLabel_eq_nil hno]
  rfl

/-- A label forwards to where the first instruction behind it jumps. -/
theorem content_of_forwardsTo? {code : Listing} {next : Label} (hnext : forwardsTo? code name = some next) :
    (code.realAt? name).bind Node.content = some (.jump next) ∧ next ≠ name := by
  unfold forwardsTo? at hnext
  split at hnext
  · rename_i hc
    split at hnext
    · cases hnext
    · rename_i hne
      cases hnext
      exact ⟨hc, hne⟩
  · cases hnext

/-- A chain that ends at all ends within the limit. -/
theorem follow_longest (h : b.WellFormed) (hfollow : follow (forwardsTo? b.code) steps l = some e) :
    follow (forwardsTo? b.code) (longest b.code) l = some e := by
  obtain ⟨path, hnodup, hpath, hshort⟩ := exists_path hfollow
  have hsub : path ⊆ labelsOf b.nodes := fun k hk => mem_labelsOf_of_forwardsTo? h (hpath k hk).1
  have hlength := (subperm_of_subset hnodup hsub).length_le
  refine follow_mono hshort ?_
  rw [longest_eq h.intact]
  exact Nat.succ_le_succ (Nat.le_succ_of_le hlength)

end JumpChain

open JumpChain

namespace Body

variable {b : Body}

/-- The labels that a pass over chains of jumps renames. -/
def IsEntry (b : Body) (t : Label) : Prop := t ∈ targetsOf b.nodes ∨ ∃ r ∈ b.ranges, r.handler = t

theorem IsEntry.referenced (ht : b.IsEntry t) : t ∈ b.referenced := by
  rw [mem_referenced]
  rcases ht with ht | ⟨r, hr, rfl⟩
  · exact .inl ht
  · exact .inr (.inl ⟨r, hr, .inr (.inr rfl)⟩)

/-- Every jump, switch and handler refers to the end of its chain, if it has one. -/
def Collapsed (b : Body) : Prop := ∀ t, b.IsEntry t → b.chainEnds.getD t t = t

theorem chainEnds_getD_eq_self (ht : t ∉ b.referenced) : b.chainEnds.getD t t = t := by
  unfold chainEnds
  rw [Std.TreeMap.getD_eq_getD_getElem?, getElem?_graph, if_neg (mt mem_referencedSet.mp ht), Option.getD_none]

theorem chainEnds_getD_eq (ht : t ∈ b.referenced) :
    b.chainEnds.getD t t = (follow (forwardsTo? b.code) (longest b.code) t).getD t := by
  have hlook : lookUp b.code (table b.code b.referencedSet.toList) = forwardsTo? b.code :=
    funext (lookUp_table b.code b.referencedSet)
  unfold chainEnds
  rw [Std.TreeMap.getD_eq_getD_getElem?, getElem?_graph, if_pos (mem_referencedSet.mpr ht), Option.getD_some, hlook]

/-- Nothing is renamed exactly if every reference is at the end of its chain. -/
theorem WellFormed.redirect_chainEnds_eq_zero_iff (h : b.WellFormed) :
    (b.redirect (fun l => b.chainEnds.getD l l) true).1 = 0 ↔ b.Collapsed := by
  rw [count_redirect, redirect_count h.intact, Nat.add_eq_zero_iff, countP_eq_zero, countP_eq_zero]
  simp only [bne_iff_ne, not_not]
  constructor
  · rintro ⟨htargets, hhandlers⟩ t (ht | ⟨r, hr, rfl⟩)
    · exact htargets t ht
    · exact hhandlers r hr
  · exact fun hc => ⟨fun t ht => hc t (.inl ht), fun r hr => hc _ (.inr ⟨r, hr, rfl⟩)⟩

theorem redirect_eq_self {f : Label → Label} (h : (b.redirect f true).1 = 0) : (b.redirect f true).2 = b := by
  simp only [redirect, if_true] at h ⊢
  split at h
  · rename_i hzero
    rw [if_pos hzero, Listing.redirect_eq_self (by omega)]
  · rename_i hne
    exact absurd h hne

/-! ### One round -/

theorem nodes_redirect (h : b.code.Intact) (f : Label → Label) :
    (b.redirect f true).2.nodes = b.nodes.map (Node.retarget f) := by
  rw [nodes, code_redirect]
  exact nodes_of_strands (redirect_strands h f)

namespace Orderly

variable {b : Body} (h : b.Orderly)

include h

theorem redirect (f : Label → Label) : (b.redirect f true).2.Orderly := by
  have hns := nodes_redirect h.intact f
  refine ⟨?_, ?_⟩
  · rw [code_redirect]
    refine intact_of_strands (redirect_strands h.intact f) fun n hn => ?_
    obtain ⟨m, hm, rfl⟩ := mem_map.mp hn
    rw [Node.live_retarget]
    exact h.live hm
  · rw [hns]
    refine ⟨?_, by rw [labelsOf_map_retarget]; exact h.distinct.labels⟩
    rw [map_map]
    exact h.distinct.ids

/-- Jumps are renamed where they stand. -/
theorem realAt?_redirect (f : Label → Label) (name : Label) :
    (b.redirect f true).2.code.realAt? name = (b.code.realAt? name).map (Node.retarget f) := by
  have h' := h.redirect f
  have hns' := nodes_redirect h.intact f
  by_cases hname : name ∈ labelsOf b.nodes
  · obtain ⟨_, a, _, hns, hla⟩ := exists_of_mem_labelsOf hname
    rw [hns, map_append] at hns'
    rw [h.realAt?_eq hns hla, h'.realAt?_eq hns' (by rw [Node.instr_retarget, hla]; rfl),
      find?_map_isReal (Node.isReal_retarget _)]
  · have hname' : name ∉ labelsOf (b.redirect f true).2.nodes := by
      rwa [hns', labelsOf_map_retarget]
    rw [realAt?, realAt?, h.fromLabel_eq_nil hname, h'.fromLabel_eq_nil hname']
    rfl

end Orderly

namespace WellFormed

variable {b : Body} (h : b.WellFormed)

include h

/-- What the first instruction behind a label forwards to, once it is renamed. -/
theorem forwardsTo?_redirect (name : Label) :
    forwardsTo? (b.redirect (fun l => b.chainEnds.getD l l) true).2.code name =
      match (b.code.realAt? name).bind Node.content with
      | some (.jump next) =>
        if b.chainEnds.getD next next = name then none else some (b.chainEnds.getD next next)
      | _ => none := by
  rw [forwardsTo?, h.orderly.realAt?_redirect]
  cases b.code.realAt? name with
  | none => rfl
  | some n =>
    obtain ⟨_, content⟩ := n
    cases content with
    | none => rfl
    | some i => cases i <;> rfl

theorem referenced_of_forwardsTo? {next : Label} (hnext : forwardsTo? b.code name = some next) :
    next ∈ b.referenced := mem_referenced.mpr (.inl (forwardsTo?_mem h.intact hnext))

/-- The end of a chain stays an end. -/
theorem forwardsTo?_redirect_eq_none (he : forwardsTo? b.code e = none) :
    forwardsTo? (b.redirect (fun l => b.chainEnds.getD l l) true).2.code e = none := by
  rw [h.forwardsTo?_redirect]
  split
  · rename_i next hc
    -- a jump at the end of a chain goes to its own label
    obtain rfl : next = e := by
      by_contra hne
      rw [forwardsTo?, hc] at he
      simp [hne] at he
    have href : next ∈ b.referenced := by
      obtain ⟨n, hn, hcontent⟩ := Option.bind_eq_some_iff.mp hc
      refine mem_referenced.mpr (.inl (mem_targetsOf.mpr ⟨n, h.mem_of_realAt? hn, ?_⟩))
      rw [Node.instr_of_content hcontent]
      simp [Instruction.targets]
    have hend : b.chainEnds.getD next next = next := by
      rw [chainEnds_getD_eq href, longest, follow_of_next_eq_none he]
      rfl
    rw [if_pos hend]
  · rfl

/-- A circle of jumps stays as it is. -/
theorem follow_redirect_eq_none (ht : ∀ k, follow (forwardsTo? b.code) k t = none) (steps : Nat) :
    follow (forwardsTo? (b.redirect (fun l => b.chainEnds.getD l l) true).2.code) steps t = none := by
  have hsame : ∀ k, (∀ j, follow (forwardsTo? b.code) j k = none) →
      forwardsTo? (b.redirect (fun l => b.chainEnds.getD l l) true).2.code k = forwardsTo? b.code k := by
    intro k hk
    cases hnext : forwardsTo? b.code k with
    | none =>
      have := hk 1
      rw [follow_of_next_eq_none hnext] at this
      cases this
    | some next =>
      obtain ⟨hc, hne⟩ := content_of_forwardsTo? hnext
      have hcircle : follow (forwardsTo? b.code) (longest b.code) next = none := by
        have := hk (longest b.code + 1)
        rwa [follow, hnext] at this
      have hstays : b.chainEnds.getD next next = next := by
        rw [chainEnds_getD_eq (h.referenced_of_forwardsTo? hnext), hcircle]
        rfl
      rw [h.forwardsTo?_redirect, hc]
      simp [hstays, hne]
  rw [follow_congr hsame ?_ ht]
  · exact ht steps
  · intro k _ hk hnext j
    have := hk (j + 1)
    rwa [follow, hnext] at this

/-- A body whose references were sent along their chains has nothing left to send. -/
theorem collapsed_redirect : (b.redirect (fun l => b.chainEnds.getD l l) true).2.Collapsed := by
  intro t' ht'
  obtain ⟨t, ht, rfl⟩ : ∃ t, b.IsEntry t ∧ t' = b.chainEnds.getD t t := by
    rcases ht' with ht' | ⟨r, hr, rfl⟩
    · rw [nodes_redirect h.intact, targetsOf_map_retarget] at ht'
      obtain ⟨t, ht, rfl⟩ := mem_map.mp ht'
      exact ⟨t, .inl ht, rfl⟩
    · rw [ranges_redirect] at hr
      obtain ⟨r, hold, rfl⟩ := mem_map.mp hr
      exact ⟨r.handler, .inr ⟨r, hold, rfl⟩, rfl⟩
  rw [chainEnds_getD_eq ht'.referenced, chainEnds_getD_eq ht.referenced]
  cases hfollow : follow (forwardsTo? b.code) (longest b.code) t with
  | some e =>
    rw [Option.getD_some, longest, follow_of_next_eq_none (h.forwardsTo?_redirect_eq_none (next_of_follow hfollow))]
    rfl
  | none =>
    have hcircle : ∀ k, follow (forwardsTo? b.code) k t = none := by
      intro k
      by_contra hend
      obtain ⟨e, he⟩ := Option.ne_none_iff_exists'.mp hend
      rw [follow_longest h he] at hfollow
      cases hfollow
    rw [Option.getD_none, h.follow_redirect_eq_none hcircle]
    rfl

/-! ### All rounds -/

theorem redirect_eq_of_collapsed (hc : b.Collapsed) : b.redirect (fun l => b.chainEnds.getD l l) true = (0, b) :=
  Prod.ext (h.redirect_chainEnds_eq_zero_iff.mpr hc) (redirect_eq_self (h.redirect_chainEnds_eq_zero_iff.mpr hc))

theorem collapseRounds_eq (hc : b.Collapsed) (rounds changes : Nat) :
    b.collapseRounds (rounds + 1) changes = (changes, b) := by
  simp [Body.collapseRounds, h.redirect_eq_of_collapsed hc]

/-- One round does all that there is to do, however many may follow. -/
theorem collapseRounds_redirect (rounds : Nat) :
    b.collapseRounds (rounds + 2) 0 = b.redirect (fun l => b.chainEnds.getD l l) true := by
  by_cases hc : b.Collapsed
  · rw [h.collapseRounds_eq hc, h.redirect_eq_of_collapsed hc]
  · have hchanged := mt h.redirect_chainEnds_eq_zero_iff.mp hc
    have hcollapsed := h.collapsed_redirect
    have hwell := h.redirect_chainEnds
    rw [Body.collapseRounds]
    split
    · rename_i heq
      exact absurd (by rw [heq]) hchanged
    · rename_i heq
      rw [heq] at hcollapsed hwell ⊢
      rw [hwell.collapseRounds_eq hcollapsed, Nat.zero_add]

theorem collapseJumpChains_eq : b.collapseJumpChains = b.redirect (fun l => b.chainEnds.getD l l) true :=
  h.collapseRounds_redirect _

theorem collapseJumpChains_eq_zero_iff : b.collapseJumpChains.1 = 0 ↔ b.Collapsed := by
  rw [h.collapseJumpChains_eq, h.redirect_chainEnds_eq_zero_iff]

theorem collapsed_collapseJumpChains : b.collapseJumpChains.2.Collapsed := by
  rw [h.collapseJumpChains_eq]
  exact h.collapsed_redirect

/-- Labels that nothing refers to are on no chain. -/
theorem collapsed_tidied (hc : b.Collapsed) : b.tidied.Collapsed := by
  have hforwards : ∀ k ∈ b.referenced, forwardsTo? b.tidied.code k = forwardsTo? b.code k := fun k hk => by
    rw [forwardsTo?, forwardsTo?, h.realAt?_tidied hk]
  have hkeeps : ∀ k k', k ∈ b.referenced → forwardsTo? b.code k = some k' → k' ∈ b.referenced :=
    fun _ _ _ => h.referenced_of_forwardsTo?
  intro t ht
  have hentry : b.IsEntry t := by
    rw [IsEntry, h.orderly.targetsOf_tidied] at ht
    exact ht
  rw [chainEnds_getD_eq ht.referenced, follow_congr hforwards hkeeps hentry.referenced]
  have hend := hc t hentry
  rw [chainEnds_getD_eq hentry.referenced] at hend
  cases hfollow : follow (forwardsTo? b.code) (longest b.tidied.code) t with
  | none => rfl
  | some e => rwa [follow_longest h hfollow] at hend

end WellFormed

end Body

end Untangle
