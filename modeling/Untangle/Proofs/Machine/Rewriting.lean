import Untangle.Proofs.Machine.Semantics
import Untangle.Proofs.Simplification.Sweep

/-!
# Rewriting code without a change that can be seen

Some nodes in the middle of a run of code may give way to others if nothing but what follows them
depends on it: they bind the same labels, none of which anything refers to; nothing that is up to the
world stands among them; and the machine does the same as it goes through them. `Interchangeable` says
so of two blocks, and `run_interchange` that then every run, from any place on that something refers
to, looks the same in both programs.

The one difference allowed is that a run which goes wrong need not do so in the new program.
-/

namespace Untangle.Machine

open List

variable {L H : Type} {r s : Run L H} {i : Instr} {d : Dest} {n : Node} {rest : List Node} {b : Body} {p : Node → Bool}

/-! ### Runs that look the same -/

/-- The second run looks like the first; only where the first goes wrong the second may go on. -/
def Run.RefinedBy (r s : Run L H) : Prop := s = r ∨ r.outcome = .wrong ∧ r.events <+: s.events

namespace Run.RefinedBy

theorem refl (r : Run L H) : r.RefinedBy r := .inl rfl

theorem trans {t : Run L H} (h : r.RefinedBy s) (h' : s.RefinedBy t) : r.RefinedBy t := by
  rcases h with rfl | ⟨hr, hrs⟩
  · exact h'
  · rcases h' with rfl | ⟨-, hst⟩
    · exact .inr ⟨hr, hrs⟩
    · exact .inr ⟨hr, hrs.trans hst⟩

theorem after (events : List (Event L H)) (h : r.RefinedBy s) : (r.after events).RefinedBy (s.after events) := by
  rcases h with rfl | ⟨hr, hrs⟩
  · exact .refl _
  · exact .inr ⟨hr, (prefix_append_right_inj events).mpr hrs⟩

/-- A run that goes wrong at once is refined by any run. -/
theorem of_wrong (r : Run L H) : (⟨[], .wrong⟩ : Run L H).RefinedBy r := .inr ⟨rfl, r.events.nil_prefix⟩

end Run.RefinedBy

/-! ### Where control goes -/

/-- The place has no label but one of these. -/
def Dest.Within (known : Label → Bool) : Dest → Prop
  | .label l => known l = true
  | _ => True

/-- A switch goes to one of its targets. -/
theorem mem_targets_of_chosen? {selector : Int32} {t : Label} (h : chosen? selector i = some t) : t ∈ i.targets := by
  unfold chosen? at h
  split at h
  · split at h
    · exact mem_append_left _ (mem_of_getElem? h)
    · cases h
      exact mem_append_right _ (mem_singleton_self _)
  · split at h
    · next hfind =>
      cases h
      exact mem_append_left _ (mem_map_of_mem (mem_of_find?_eq_some hfind))
    · cases h
      exact mem_append_right _ (mem_singleton_self _)
  · cases h

namespace World

variable (w : World L H) {known : Label → Bool} {f f' : Frame L H} {ranges : List Range}

theorem switch_eq_goes (h : switch i f = .goes d f') : ∃ t ∈ i.targets, d = .label t := by
  unfold switch at h
  split at h
  · split at h
    · next ht =>
      cases h
      exact ⟨_, mem_targets_of_chosen? ht, rfl⟩
    · cases h
  · cases h

theorem perform_eq_goes (h : w.perform n f = .goes d f') :
    (∃ t ∈ n.instr.targets, d = .label t) ∨ ∃ caller, d = .behind caller := by
  unfold perform at h
  split at h
  · cases h
  · split at h
    · next ht =>
      cases h
      exact .inl ⟨_, mem_of_getElem? ht, rfl⟩
    · cases h
  · cases h
    exact .inr ⟨_, rfl⟩
  · cases h
  · cases h

/-- A node sends control to one of its targets or back behind a call. -/
theorem move_eq_goes (h : w.move n f = .goes d f') :
    (∃ t ∈ n.instr.targets, d = .label t) ∨ ∃ caller, d = .behind caller := by
  unfold move at h
  cases hi : n.instr with rw [hi] at h
  | jump t =>
    cases h
    exact .inl ⟨t, mem_singleton_self t, rfl⟩
  | branch _ t =>
    dsimp only at h
    split at h
    · cases h
      exact .inl ⟨t, mem_singleton_self t, rfl⟩
    · cases h
    · cases h
  | tableSwitch _ _ otherwise targets => exact .inl (switch_eq_goes h)
  | lookupSwitch otherwise => exact .inl (switch_eq_goes h)
  | label => cases h
  | line => cases h
  | push => cases h
  | math _ op =>
    dsimp only at h
    split at h
    all_goals cases h
  | stack op =>
    cases op with
    | pop =>
      dsimp only at h
      split at h
      all_goals cases h
    | pop2 =>
      dsimp only at h
      split at h
      all_goals cases h
    | _ => exact hi ▸ w.perform_eq_goes h
  | _ => exact hi ▸ w.perform_eq_goes h

theorem within_of_move (h : w.move n f = .goes d f') (hn : ∀ t ∈ n.instr.targets, known t = true) : d.Within known := by
  rcases w.move_eq_goes h with ⟨t, ht, rfl⟩ | ⟨_, rfl⟩
  · exact hn t ht
  · trivial

/-! ### Running forward -/

section Forward

variable {go go' : Dest → Frame L H → Run L H} {ms ns : List Node}

theorem covering_congr (h : labelsOf ms = labelsOf ns) : covering ranges ms = covering ranges ns := by
  rw [covering, covering, h]

theorem noted_congr (h : labelsOf ms = labelsOf ns) (f : Frame L H) : noted ranges n ms f = noted ranges n ns f := by
  rw [noted, noted, covering_congr h]

/-- After one move both programs go on alike if they do so wherever the move may lead. -/
theorem proceed_refined {on on' : Frame L H → Run L H} (hgo : ∀ d f, d.Within known → (go d f).RefinedBy (go' d f))
    (hhandlers : ∀ r ∈ ranges, known r.handler = true) (hn : ∀ t ∈ n.instr.targets, known t = true)
    (hlabels : labelsOf ms = labelsOf ns) (hon : ∀ f, (on f).RefinedBy (on' f)) (f : Frame L H) :
    (w.proceed ranges go ns on (w.move n f)).RefinedBy (w.proceed ranges go' ms on' (w.move n f)) := by
  cases hm : w.move n f with
  | on f' => exact hon f'
  | goes d f' => exact hgo d f' (w.within_of_move hm hn)
  | throws e f' =>
    rw [proceed, proceed, covering_congr hlabels]
    split
    · next r hr =>
      have hmem : r ∈ ranges := (mem_filter.mp (mem_of_find?_eq_some hr)).1
      exact hgo _ _ (hhandlers r hmem)
    · exact .refl _
  | stops o => exact .refl _

/-- What is put in front of two runs of code that look the same leaves them so. -/
theorem stretch_append (front : List Node) (hgo : ∀ d f, d.Within known → (go d f).RefinedBy (go' d f))
    (hhandlers : ∀ r ∈ ranges, known r.handler = true) (hfront : ∀ t ∈ targetsOf front, known t = true)
    (hlabels : labelsOf ms = labelsOf ns) (h : ∀ f, (w.stretch ranges go ns f).RefinedBy (w.stretch ranges go' ms f))
    (f : Frame L H) : (w.stretch ranges go (front ++ ns) f).RefinedBy (w.stretch ranges go' (front ++ ms) f) := by
  induction front generalizing f with
  | nil => exact h f
  | cons n front ih =>
    rw [targetsOf_cons, forall_mem_append] at hfront
    have hsame : labelsOf (front ++ ms) = labelsOf (front ++ ns) := by
      rw [labelsOf_append, labelsOf_append, hlabels]
    rw [cons_append, cons_append, stretch, stretch, noted_congr hsame]
    exact (w.proceed_refined hgo hhandlers hfront.1 hsame (ih hfront.2) f).after _

/-- The same code looks the same if it goes on alike after each transfer. -/
theorem stretch_refined (ns : List Node) (hgo : ∀ d f, d.Within known → (go d f).RefinedBy (go' d f))
    (hhandlers : ∀ r ∈ ranges, known r.handler = true) (hns : ∀ t ∈ targetsOf ns, known t = true)
    (f : Frame L H) : (w.stretch ranges go ns f).RefinedBy (w.stretch ranges go' ns f) := by
  have h : (w.stretch ranges go (ns ++ []) f).RefinedBy (w.stretch ranges go' (ns ++ []) f) :=
    w.stretch_append ns hgo hhandlers hns rfl (fun _ => .refl _) f
  rwa [append_nil] at h

end Forward

/-! ### Blocks -/

/-- What a block of nodes does, up to the first transfer of control in it. -/
def through : List Node → Frame L H → Move L H
  | [], f => .on f
  | n :: ns, f =>
    match w.move n f with
    | .on f => through ns f
    | m => m

theorem within_of_through (h : w.through block f = .goes d f') (hblock : ∀ t ∈ targetsOf block, known t = true) :
    d.Within known := by
  induction block generalizing f with
  | nil => cases h
  | cons n block ih =>
    rw [targetsOf_cons, forall_mem_append] at hblock
    rw [through] at h
    cases hm : w.move n f with
    | on f₁ =>
      simp only [hm] at h
      exact ih h hblock.2
    | goes _ f₁ =>
      simp only [hm] at h
      cases h
      exact w.within_of_move hm hblock.1
    | throws e f₁ => simp [hm] at h
    | stops o => simp [hm] at h

/-- A block in which nothing is observed can be run in one go. -/
theorem stretch_block (go : Dest → Frame L H → Run L H) (rest : List Node)
    (hquiet : ∀ n ∈ block, isObserved n.instr = false) (hthrows : ∀ e f', w.through block f ≠ .throws e f') :
    w.stretch ranges go (block ++ rest) f =
      w.proceed ranges go rest (w.stretch ranges go rest) (w.through block f) := by
  induction block generalizing f with
  | nil => rfl
  | cons n block ih =>
    rw [forall_mem_cons] at hquiet
    have hnoted : noted ranges n (block ++ rest) f = [] := by
      rw [noted, hquiet.1]
      rfl
    rw [cons_append, stretch, hnoted, through]
    rw [through] at hthrows
    cases hm : w.move n f with
    | on f' =>
      simp only [hm] at hthrows
      exact ih hquiet.2 hthrows
    | throws e f' =>
      simp only [hm] at hthrows
      exact absurd rfl (hthrows e f')
    | goes d f' => rfl
    | stops o => rfl

/-- One block may stand in the place of the other: nothing refers to a place inside, nothing inside is
up to the world, and the machine does the same unless it goes wrong. -/
structure Interchangeable (known : Label → Bool) (block block' : List Node) : Prop where
  labels : labelsOf block' = labelsOf block
  hidden : ∀ l ∈ labelsOf block, known l = false
  quiet : ∀ n ∈ block, isObserved n.instr = false
  quiet' : ∀ n ∈ block', isObserved n.instr = false
  moves : ∀ f, w.through block f = .stops .wrong ∨
    w.through block' f = w.through block f ∧ ∀ e f', w.through block f ≠ .throws e f'

end World

/-! ### Places -/

theorem behind?_append (p : Node → Bool) (ns ms : List Node) :
    behind? p (ns ++ ms) = ((behind? p ns).map (· ++ ms)).or (behind? p ms) := by
  induction ns with
  | nil => rfl
  | cons n ns ih =>
    rw [cons_append, behind?, behind?, ih]
    by_cases hn : p n = true <;> simp [hn]

theorem behind?_eq_none (h : ∀ n ∈ ns, p n = false) : behind? p ns = none := by
  induction ns with
  | nil => rfl
  | cons n ns ih =>
    rw [forall_mem_cons] at h
    rw [behind?, h.1]
    exact ih h.2

theorem suffix_of_behind? (h : behind? p ns = some rest) : rest <:+ ns := by
  induction ns with
  | nil => cases h
  | cons n ns ih =>
    rw [behind?] at h
    split at h
    · cases h
      exact suffix_cons n rest
    · exact (ih h).trans (suffix_cons n ns)

theorem targetsOf_subset_of_suffix (h : ns <:+ ms) : ∀ t ∈ targetsOf ns, t ∈ targetsOf ms := by
  obtain ⟨_, rfl⟩ := h
  intro t ht
  rw [targetsOf_append]
  exact mem_append_right _ ht

/-- A place that one node in the middle cannot be is before the middle or behind it. -/
theorem behind?_interchange (before rest : List Node) (h : ∀ n ∈ block, p n = false) (h' : ∀ n ∈ block', p n = false) :
    (∃ front, front <:+ before ∧ behind? p (before ++ block ++ rest) = some (front ++ block ++ rest) ∧
      behind? p (before ++ block' ++ rest) = some (front ++ block' ++ rest)) ∨
    behind? p (before ++ block' ++ rest) = behind? p (before ++ block ++ rest) ∧
      ∀ tail, behind? p (before ++ block ++ rest) = some tail → tail <:+ rest := by
  simp only [behind?_append, behind?_eq_none h, behind?_eq_none h']
  cases hb : behind? p before with
  | some front => exact .inl ⟨front, suffix_of_behind? hb, by simp, by simp⟩
  | none => exact .inr ⟨rfl, fun tail ht => suffix_of_behind? (by simpa using ht)⟩

theorem isCall_of_quiet (h : isObserved i = false) : isCall i = false := by
  cases i with
  | callSub t => cases h
  | _ => rfl

/-- Nothing refers to a place in a block whose labels are hidden and that calls no subroutine. -/
theorem not_place {known : Label → Bool} (hhidden : ∀ l ∈ labelsOf block, known l = false) {l : Label}
    (hl : known l = true) : ∀ n ∈ block, decide (n.instr = .label l) = false := by
  intro n hn
  rw [decide_eq_false_iff_not]
  intro hi
  have hmem : l ∈ labelsOf block := mem_labelsOf.mpr ⟨n, hn, hi⟩
  rw [hhidden l hmem] at hl
  cases hl

namespace World

variable {w : World L H} {known : Label → Bool} {block block' : List Node} {ranges : List Range}

section

variable (h : w.Interchangeable known block block')

include h

/-- A place that something refers to is before the two blocks or behind them. -/
theorem Interchangeable.resolve (before rest : List Node) (hd : d.Within known) :
    (∃ front, front <:+ before ∧ resolve (before ++ block ++ rest) d = some (front ++ block ++ rest) ∧
      resolve (before ++ block' ++ rest) d = some (front ++ block' ++ rest)) ∨
    resolve (before ++ block' ++ rest) d = resolve (before ++ block ++ rest) d ∧
      ∀ tail, resolve (before ++ block ++ rest) d = some tail → tail <:+ rest := by
  cases d with
  | start => exact .inl ⟨before, suffix_rfl, rfl, rfl⟩
  | label l =>
    have hhidden' : ∀ l ∈ labelsOf block', known l = false := by
      rw [h.labels]
      exact h.hidden
    exact behind?_interchange before rest (not_place h.hidden hd) (not_place hhidden' hd)
  | behind =>
    refine behind?_interchange before rest (fun n hn => ?_) fun n hn => ?_
    · simp [isCall_of_quiet (h.quiet n hn)]
    · simp [isCall_of_quiet (h.quiet' n hn)]

/-- From the blocks on, both programs look the same. -/
theorem Interchangeable.stretch (rest : List Node) (hgo : ∀ d f, d.Within known → (go d f).RefinedBy (go' d f))
    (hhandlers : ∀ r ∈ ranges, known r.handler = true) (hblock : ∀ t ∈ targetsOf block, known t = true)
    (hrest : ∀ t ∈ targetsOf rest, known t = true) (f : Frame L H) :
    (w.stretch ranges go (block ++ rest) f).RefinedBy (w.stretch ranges go' (block' ++ rest) f) := by
  rcases h.moves f with hwrong | ⟨heq, hthrows⟩
  · have hold : w.stretch ranges go (block ++ rest) f = ⟨[], .wrong⟩ := by
      rw [w.stretch_block go rest h.quiet (by simp [hwrong]), hwrong]
      rfl
    rw [hold]
    exact .of_wrong _
  · rw [w.stretch_block go rest h.quiet hthrows, w.stretch_block go' rest h.quiet' (by rwa [heq]), heq]
    cases hm : w.through block f with
    | on f' => exact w.stretch_refined rest hgo hhandlers hrest f'
    | goes d f' => exact hgo d f' (w.within_of_through hm hblock)
    | throws e f' => exact absurd hm (hthrows e f')
    | stops o => exact .refl _

/-- Runs from any place that something refers to look the same in both programs. -/
theorem Interchangeable.run {before : List Node} (hhandlers : ∀ r ∈ ranges, known r.handler = true)
    (hns : ∀ t ∈ targetsOf (before ++ block ++ rest), known t = true) (transfers : Nat) (hd : d.Within known)
    (f : Frame L H) :
    (w.run ranges (before ++ block ++ rest) transfers d f).RefinedBy
      (w.run ranges (before ++ block' ++ rest) transfers d f) := by
  induction transfers generalizing d f with
  | zero => exact .refl _
  | succ transfers ih =>
    have hgo : ∀ d f, Dest.Within known d →
        (w.run ranges (before ++ block ++ rest) transfers d f).RefinedBy
          (w.run ranges (before ++ block' ++ rest) transfers d f) := fun d f hd => ih hd f
    simp only [targetsOf_append, forall_mem_append] at hns
    obtain ⟨⟨hbefore, hblock⟩, hrest⟩ := hns
    rw [World.run, World.run]
    rcases h.resolve before rest hd with ⟨front, hfront, hold, hnew⟩ | ⟨hsame, hsuffix⟩
    · simp only [hold, hnew]
      rw [append_assoc front, append_assoc front]
      refine w.stretch_append front hgo hhandlers
        (fun t ht => hbefore t (targetsOf_subset_of_suffix hfront t ht)) ?_ ?_ f
      · rw [labelsOf_append, labelsOf_append, h.labels]
      · exact h.stretch rest hgo hhandlers hblock hrest
    · rw [hsame]
      cases hr : Machine.resolve (before ++ block ++ rest) d with
      | none => exact .refl _
      | some tail =>
        exact w.stretch_refined tail hgo hhandlers
          (fun t ht => hrest t (targetsOf_subset_of_suffix (hsuffix tail hr) t ht)) f

end

/-! ### Sweeps -/

/-- Whenever the rule applies, it exchanges the last nodes passed for others that do the same. -/
def KeptBy (w : World L H) (known : Label → Bool) (rule : Rule) : Prop :=
  ∀ passed n passed', rule passed n = some passed' → ∃ before block block',
    (n :: passed).reverse = before ++ block ∧ passed'.reverse = before ++ block' ∧
      w.Interchangeable known block block'

/-- Going through nodes with such a rule cannot be seen in a run. -/
theorem KeptBy.sweep {rule : Rule} (h : w.KeptBy known rule) (hmild : rule.Mild)
    (hhandlers : ∀ r ∈ ranges, known r.handler = true) (changes : Nat) (passed ns : List Node)
    (hns : ∀ t ∈ targetsOf (passed.reverse ++ ns), known t = true) (transfers : Nat)
    (hd : d.Within known) (f : Frame L H) :
    (w.run ranges (passed.reverse ++ ns) transfers d f).RefinedBy
      (w.run ranges (rule.sweep changes passed ns).2 transfers d f) := by
  induction ns generalizing changes passed with
  | nil =>
    rw [append_nil]
    exact .refl _
  | cons n rest ih =>
    have hcons : passed.reverse ++ n :: rest = (n :: passed).reverse ++ rest := by simp
    rw [hcons] at hns ⊢
    rw [Rule.sweep]
    cases hr : rule passed n with
    | none => exact ih changes (n :: passed) hns
    | some passed' =>
      obtain ⟨_, _, _, hold, hnew, hswap⟩ := h passed n passed' hr
      have hns' : ∀ t ∈ targetsOf (passed'.reverse ++ rest), known t = true := by
        intro t ht
        exact hns t (((hmild passed n passed' hr).append (.refl rest)).targets t ht)
      have hstep := hswap.run hhandlers (hold ▸ hns) transfers hd f
      rw [← hold, ← hnew] at hstep
      exact hstep.trans (ih (changes + 1) passed' hns')

/-- What a sweep makes of a body. -/
theorem sweep_cases (hb : b.WellFormed) (rule : (Label → Bool) → Rule) :
    (b.sweep rule).2 = b ∨ (b.sweep rule).2.ranges = b.ranges ∧
      (b.sweep rule).2.nodes = ((rule b.referencedSet.contains).sweep 0 [] b.nodes).2 := by
  unfold Body.sweep
  cases hsweep : (rule b.referencedSet.contains).sweep 0 [] b.nodes with
  | mk changes nodes =>
    simp only [hsweep]
    cases changes with
    | zero => exact .inl rfl
    | succ k =>
      refine .inr ⟨rfl, Listing.nodes_of_strands (Listing.withNodes_strands hb.intact fun hnil => ?_)⟩
      rw [show b.nodes = [] from hnil] at hsweep
      cases hsweep

/-- A sweep with such a rule leaves every run of a body as it was. -/
theorem runBody_sweep (w : World L H) (hb : b.WellFormed) {rule : (Label → Bool) → Rule}
    (hmild : ∀ known, (rule known).Mild) (hrule : ∀ known, w.KeptBy known (rule known)) (transfers : Nat)
    (f : Frame L H) : (w.runBody b transfers f).RefinedBy (w.runBody (b.sweep rule).2 transfers f) := by
  have hknown : ∀ t ∈ b.referenced, b.referencedSet.contains t = true := by
    simp [Body.referencedSet]
  rcases sweep_cases hb rule with hsame | ⟨hranges, hnodes⟩
  · rw [hsame]
    exact .refl _
  · rw [runBody, runBody, hranges, hnodes]
    exact (hrule b.referencedSet.contains).sweep (hmild _)
      (fun r hr => hknown _ (Body.mem_referenced.mpr (.inr (.inl ⟨r, hr, .inr (.inr rfl)⟩)))) 0 [] b.nodes
      (fun t ht => hknown t (Body.mem_referenced.mpr (.inl ht))) transfers (d := .start) trivial f

end World

end Untangle.Machine
