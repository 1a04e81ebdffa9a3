import Untangle.Proofs.ClassUnit.Removal
import Untangle.Proofs.Descriptor
import Untangle.Proofs.Members.CallGraph

/-!
# Taking out forwarders settles

Each round looks for the forwarders of a class anew, leaves those aside that call another one, and sends the
calls of the others to where they are sent on. So every call it changes is one of a forwarder, becomes the
call that this forwarder makes, and what it calls then is no forwarder: forwarders are stand-ins in the sense
of call graphs. What is called is called from fewer places or leads to fewer methods after every round that
changes something, and no method or field comes back, so the rounds come to an end, however forwarders call
each other.

The only thing that stops it is a method with more slots of arguments than there are, if it may be a
forwarder: then there is no first round. A round makes no such method.
-/

namespace Untangle

open List CallGraph

variable {m' : Method} {ms' : List Method} {c' : Context}

/-! ### Finding forwarders -/

namespace Forwarder

variable {owner : String} {m : Method} {ms : List Method} {f g : Forwarder} {fs fs' : List Forwarder} {s : Signature}

theorem of_find? (h : find? fs s = some f) : f ∈ fs ∧ f.source = s :=
  ⟨mem_of_find?_eq_some h, by simpa using find?_some h⟩

theorem find?_eq_none : find? fs s = none ↔ ¬ Covers fs s := by simp [find?, Covers]

/-- The forwarders of a class that lead to no forwarder of the class. Of several methods with one signature
only one counts. -/
structure Plain (u : ClassUnit) (fs : List Forwarder) : Prop where
  forwards : ∀ f ∈ fs, ∃ m ∈ u.methods, Forwards u.name m f
  ends : ∀ f ∈ fs, ∀ m ∈ u.methods, ∀ g, Forwards u.name m g → f.target ≠ m.signature
  complete : ∀ m ∈ u.methods, ∀ f, Forwards u.name m f → Covers fs m.signature ∨
    ∃ m' ∈ u.methods, ∃ g, Forwards u.name m' g ∧ m'.signature = m.signature ∧
      ∃ next ∈ u.methods, ∃ g', Forwards u.name next g' ∧ g.target = next.signature

theorem plain_direct (h : collect u.name [] u.methods = .ok fs) : Plain u (direct fs) := by
  obtain ⟨hfrom, -, hall⟩ := collect_spec h
  have hforwards : ∀ f ∈ fs, ∃ m ∈ u.methods, Forwards u.name m f := fun f hf =>
    (hfrom f hf).resolve_left not_mem_nil
  refine ⟨fun f hf => hforwards f (mem_filter.mp hf).1, fun f hf m hm g hg htarget => ?_,
    fun m hm f hf => ?_⟩
  · have hnone := (mem_filter.mp hf).2
    rw [Option.isNone_iff_eq_none, find?_eq_none, htarget] at hnone
    exact hnone (hall m hm g hg)
  · obtain ⟨g, hg, hsource⟩ := hall m hm f hf
    cases hnext : find? fs g.target with
    | none => exact .inl ⟨g, mem_filter.mpr ⟨hg, by rw [hnext, Option.isNone_none]⟩, hsource⟩
    | some g' =>
      obtain ⟨hg', hsource'⟩ := of_find? hnext
      obtain ⟨m', hm', hforwards'⟩ := hforwards g hg
      obtain ⟨next, hmem, hlast⟩ := hforwards g' hg'
      exact .inr ⟨m', hm', g, hforwards', hforwards'.source.symm.trans hsource, next, hmem, g', hlast,
        hsource'.symm.trans hlast.source⟩

/-! ### Redirecting calls -/

/-- The method of the class that an instruction calls. -/
def callee? (owner : String) : Instr → Option Signature
  | .invoke _ m _ => if m.owner = owner then some m.signature else none
  | _ => none

/-- The forwarder that an instruction calls. -/
def called? (owner : String) (fs : List Forwarder) (i : Instr) : Option Forwarder := (callee? owner i).bind (find? fs)

/-- A node that calls a forwarder makes the forwarder's call. -/
def redirect (owner : String) (fs : List Forwarder) (n : Node) : Node :=
  (called? owner fs n.instr).elim n fun f => { n with content := some f.call }

theorem rule_eq (passed : List Node) (n : Node) :
    rule owner fs passed n =
      (called? owner fs n.instr).map fun f => { n with content := some f.call } :: passed := by
  obtain ⟨_, _ | i⟩ := n
  · rfl
  · cases i with
    | invoke _ m =>
      simp only [rule, called?, callee?, Node.instr_some]
      split <;> rfl
    | _ => rfl

/-- A walk redirects each node by itself. -/
theorem sweep_rule (changes : Nat) (passed ns : List Node) :
    (rule owner fs).sweep changes passed ns =
      (changes + ns.countP (fun n => (called? owner fs n.instr).isSome),
        passed.reverse ++ ns.map (redirect owner fs)) := by
  induction ns generalizing changes passed with
  | nil => simp [Rule.sweep]
  | cons n ns ih =>
    rw [Rule.sweep, rule_eq]
    cases hn : called? owner fs n.instr with
    | none => simp [ih, redirect, hn]
    | some f => simp [ih, redirect, hn, add_assoc, add_comm 1]

theorem redirect_eq_self {n : Node} (h : called? owner fs n.instr = none) : redirect owner fs n = n := by
  rw [redirect, h, Option.elim_none]

/-- What redirecting the calls in a body counts and gives. -/
theorem sweep_body (owner : String) (fs : List Forwarder) (b : Body) :
    (b.sweep fun _ => rule owner fs).1 = b.code.instrs.countP (fun i => (called? owner fs i).isSome) ∧
      (b.sweep fun _ => rule owner fs).2.nodes = b.nodes.map (redirect owner fs) ∧
      (b.sweep fun _ => rule owner fs).2.ranges = b.ranges := by
  have hinstrs : b.code.instrs.countP (fun i => (called? owner fs i).isSome) =
      b.nodes.countP fun n => (called? owner fs n.instr).isSome := countP_map
  unfold Body.sweep
  simp only [sweep_rule, hinstrs, zero_add]
  cases hcount : b.nodes.countP fun n => (called? owner fs n.instr).isSome with
  | zero =>
    have hnone : ∀ n ∈ b.nodes, redirect owner fs n = n := fun n hn =>
      redirect_eq_self (by simpa using countP_eq_zero.mp hcount n hn)
    exact ⟨rfl, ((map_congr_left hnone).trans (map_id' _)).symm, rfl⟩
  | succ k => exact ⟨rfl, Listing.nodes_withNodes (by simp +contextual [Body.nodes]), rfl⟩

/-- A method in which the calls of forwarders were redirected, unless it is one of them or has no body. -/
inductive Redirected (owner : String) (fs : List Forwarder) (m : Method) : Method → Prop where
  | kept : (find? fs m.signature).isSome ∨ m.body = none → Redirected owner fs m m
  | changed {b b' : Body} : find? fs m.signature = none → m.body = some b → b'.ranges = b.ranges →
      b'.nodes = b.nodes.map (redirect owner fs) → Redirected owner fs m { m with body := some b' }

/-- How many calls in a method are redirected. -/
def redirections (owner : String) (fs : List Forwarder) (m : Method) : Nat :=
  if (find? fs m.signature).isSome then 0 else m.instrs.countP fun i => (called? owner fs i).isSome

theorem redirectCalls_spec (owner : String) (fs : List Forwarder) (ms : List Method) :
    (redirectCalls owner fs 0 [] ms).1 = (ms.map (redirections owner fs)).sum ∧
      List.Forall₂ (Redirected owner fs) ms (redirectCalls owner fs 0 [] ms).2 := by
  have h : Elementwise (fun n m m' => n = redirections owner fs m ∧ Redirected owner fs m m')
      (fun k ms ms' => k = (ms.map (redirections owner fs)).sum ∧ Forall₂ (Redirected owner fs) ms ms') :=
    ⟨⟨rfl, .nil⟩, fun hm hms => ⟨by simp [hm.1, hms.1], .cons hm.2 hms.2⟩⟩
  refine h.redirectCalls (fun hkept => ⟨?_, .kept hkept⟩) (fun {m b} hb hfind => ?_) ms
  · rcases hkept with hfind | hb
    · simp [redirections, hfind]
    · simp [redirections, Method.instrs, hb]
  · obtain ⟨hcount, hnodes, hranges⟩ := sweep_body owner fs b
    exact ⟨by simp [redirections, Method.instrs, hfind, hb, hcount], .changed hfind hb hranges hnodes⟩

/-! ### One round -/

/-- What one round does: it redirects the calls of some forwarders, none of which leads to a forwarder, and
takes out methods and fields. What it counts are the calls, methods and fields. -/
structure Redirects (fs : List Forwarder) (u : ClassUnit) (changes : Nat) (v : ClassUnit) : Prop where
  plain : Plain u fs
  name : v.name = u.name
  methods : ∃ ms, List.Forall₂ (Redirected u.name fs) u.methods ms ∧ v.methods.Sublist ms
  fields : v.fields.Sublist u.fields
  count : changes + v.methods.length + v.fields.length =
    (u.methods.map (redirections u.name fs)).sum + u.methods.length + u.fields.length

variable {u v w : ClassUnit} {changes : Nat}

theorem redirects_of_run (h : run u = .ok (changes, v)) : ∃ fs, Redirects fs u changes v := by
  obtain ⟨fs, hfs, h⟩ := bind_eq_ok.mp h
  obtain ⟨hcount, hms⟩ := redirectCalls_spec u.name (direct fs) u.methods
  dsimp only at h
  cases h
  refine ⟨direct fs, plain_direct hfs, by simp, ⟨_, hms, by simp⟩, by simp, ?_⟩
  exact (ClassUnit.length_removals _ _ _ _).trans (by rw [hcount, hms.length_eq])

theorem Redirected.signature (h : Redirected owner fs m m') : m'.signature = m.signature := by
  cases h <;> rfl

theorem Redirected.forwardsPastLastSlot (h : Redirected owner fs m m') (hm' : m'.ForwardsPastLastSlot) :
    m.ForwardsPastLastSlot := by
  cases h with
  | kept => exact hm'
  | changed _ hb hranges =>
    obtain ⟨_, d, hb', hd, hcandidate, hslots⟩ := hm'
    cases hb'
    exact ⟨_, d, hb, hd, by rwa [← hranges], hslots⟩

theorem none_forwardsPastLastSlot (h : List.Forall₂ (Redirected owner fs) ms ms')
    (hms : ∀ m ∈ ms, ¬ m.ForwardsPastLastSlot) : ∀ m ∈ ms', ¬ m.ForwardsPastLastSlot := by
  induction h with
  | nil => exact hms
  | cons hm _ ih =>
    rw [forall_mem_cons] at hms ⊢
    exact ⟨fun hpast => hms.1 (hm.forwardsPastLastSlot hpast), ih hms.2⟩

/-- No round makes a method that has too many arguments to be a forwarder. -/
theorem Redirects.none_forwardsPastLastSlot (h : Redirects fs u changes v)
    (hu : ∀ m ∈ u.methods, ¬ m.ForwardsPastLastSlot) : ∀ m ∈ v.methods, ¬ m.ForwardsPastLastSlot := by
  obtain ⟨_, hms, hsub⟩ := h.methods
  exact fun m hm => Forwarder.none_forwardsPastLastSlot hms hu m (hsub.subset hm)

end Forwarder

/-! ### The calls of a class -/

/-- The methods of the class that a method calls, once for each call. -/
def Method.callees (owner : String) (m : Method) : List Signature := m.instrs.filterMap (Forwarder.callee? owner)

/-- Methods with what they call in their class. -/
def CallGraph.of (owner : String) (ms : List Method) : CallGraph := ms.map fun m => (m.signature, m.callees owner)

namespace Forwarder

/-- The targets of forwarders stand in for them. -/
def standIn (fs : List Forwarder) (s : Signature) : Option Signature := (find? fs s).map target

theorem isSome_standIn : (standIn fs s).isSome = (find? fs s).isSome := by simp [standIn]

theorem standIn_eq_some {t : Signature} (h : standIn fs s = some t) : ∃ f ∈ fs, f.source = s ∧ f.target = t := by
  obtain ⟨f, hf, ht⟩ := Option.map_eq_some_iff.mp h
  exact ⟨f, (of_find? hf).1, (of_find? hf).2, ht⟩

/-- The call of a forwarder calls its target in the class. -/
theorem Forwards.callee?_call (h : Forwards owner m f) : callee? owner f.call = some f.target := by
  cases h with
  | passesOn _ _ _ _ _ howner => exact if_pos howner

/-- A method that forwards calls the target. -/
theorem Forwards.target_mem_callees (h : Forwards owner m f) : f.target ∈ m.callees owner := by
  have hcall : f.call ∈ m.realInstrs := by
    cases h with
    | passesOn _ _ _ _ hcode => simp [hcode]
  exact mem_filterMap.mpr ⟨f.call, (mem_filter.mp hcall).1, h.callee?_call⟩

/-- Forwarders that lead to no forwarder have stand-ins. -/
theorem Plain.standIns (h : Plain u fs) : (CallGraph.of u.name u.methods).StandIns (standIn fs) where
  calls := by
    intro a b hstand
    obtain ⟨f, hf, rfl, rfl⟩ := standIn_eq_some hstand
    obtain ⟨m, hm, hforwards⟩ := h.forwards f hf
    rw [hforwards.source]
    exact ⟨m.callees u.name, mem_map_of_mem hm, hforwards.target_mem_callees⟩
  ends := by
    intro a b hstand
    obtain ⟨f, hf, rfl, rfl⟩ := standIn_eq_some hstand
    refine Option.eq_none_iff_forall_ne_some.mpr fun c hc => ?_
    obtain ⟨g, hg, hsource, -⟩ := standIn_eq_some hc
    obtain ⟨m, hm, hforwards⟩ := h.forwards g hg
    exact h.ends f hf m hm g hforwards (hsource.symm.trans hforwards.source)

section

variable {fs : List Forwarder} {owner : String} (hfs : ∀ f ∈ fs, callee? owner f.call = some f.target)

include hfs

/-- What a redirected node calls. -/
theorem callee?_redirect (n : Node) :
    callee? owner (redirect owner fs n).instr = (callee? owner n.instr).map fun k => (standIn fs k).getD k := by
  unfold redirect called? standIn
  cases hcallee : callee? owner n.instr with
  | none => simp [hcallee]
  | some k =>
    cases hfind : find? fs k with
    | none => simp [hcallee, hfind]
    | some f => simp [hfind, hfs f (of_find? hfind).1]

theorem Redirected.callees (h : Redirected owner fs m m') : m'.callees owner =
      if (standIn fs m.signature).isSome then m.callees owner
      else (m.callees owner).map fun k => (standIn fs k).getD k := by
  rw [isSome_standIn]
  cases h with
  | kept hstays =>
    rcases hstays with hfind | hb
    · rw [if_pos hfind]
    · simp [Method.callees, Method.instrs, hb]
  | @changed b b' hfind hb _ hnodes =>
    have hinstrs : b'.code.instrs = b.nodes.map fun n => (redirect owner fs n).instr := by
      change b'.nodes.map Node.instr = _
      rw [hnodes, map_map]
      rfl
    have hcallees : m.callees owner = b.nodes.filterMap fun n => callee? owner n.instr := by
      simp only [Method.callees, Method.instrs, hb]
      exact filterMap_map
    rw [hfind, hcallees, map_filterMap]
    simp only [Method.callees, Method.instrs, Option.elim_some, hinstrs, filterMap_map]
    exact filterMap_congr fun n _ => callee?_redirect hfs n

/-- Redirecting calls reroutes them in the call graph. -/
theorem of_redirected (h : List.Forall₂ (Redirected owner fs) ms ms') :
    CallGraph.of owner ms' = (CallGraph.of owner ms).reroute (standIn fs) := by
  induction h with
  | nil => rfl
  | cons hm _ ih =>
    simp only [of, reroute, map_cons] at ih ⊢
    rw [ih, hm.signature, hm.callees hfs]
    split <;> rfl

end

theorem isSome_called? (i : Instr) :
    (called? owner fs i).isSome = ((callee? owner i).map fun k => (find? fs k).isSome).getD false := by
  unfold called?
  cases callee? owner i <;> rfl

/-- The calls that are redirected are those that are rerouted. -/
theorem sum_redirections (ms : List Method) :
    (ms.map (redirections owner fs)).sum = (CallGraph.of owner ms).rerouted (standIn fs) := by
  unfold rerouted of
  rw [map_map]
  congr 1
  refine map_congr_left fun m _ => ?_
  simp [redirections, isSome_standIn, Method.callees, countP_filterMap, isSome_called?]

/-! ### Round after round -/

/-- What the calls of a class lead to, and its members. -/
noncomputable def load (all : Finset Signature) (u : ClassUnit) : Nat :=
  (CallGraph.of u.name u.methods).weight all + u.methods.length + u.fields.length

/-- Whatever a round counts it takes off the load of the class, and nothing new is called. -/
theorem Redirects.load_add_le {all : Finset Signature} (h : Redirects fs u changes v)
    (hall : ∀ k ∈ (CallGraph.of u.name u.methods).sites, k ∈ all) :
    load all v + changes ≤ load all u ∧ ∀ k ∈ (CallGraph.of v.name v.methods).sites, k ∈ all := by
  have hcalls : ∀ f ∈ fs, callee? u.name f.call = some f.target := by
    intro f hf
    obtain ⟨m, -, hforwards⟩ := h.plain.forwards f hf
    exact hforwards.callee?_call
  obtain ⟨ms, hms, hsub⟩ := h.methods
  have hgraph := of_redirected hcalls hms
  have hweight := weight_reroute h.plain.standIns hall
  have hleft : (of v.name v.methods).Sublist (of u.name ms) := by
    rw [h.name]
    exact hsub.map _
  have hless := weight_sublist all hleft
  have hcount := h.count
  rw [sum_redirections] at hcount
  rw [hgraph] at hless hleft
  refine ⟨?_, fun k hk => hall k ?_⟩
  · unfold load
    omega
  · exact mem_sites_of_reroute h.plain.standIns ((sites_sublist hleft).subset hk)

/-- One round after the other, with what each counts. -/
inductive Rounds (c : Context) : ClassUnit → List Nat → ClassUnit → Prop where
  | start (u : ClassUnit) : Rounds c u [] u
  | next {u v w : ClassUnit} {changes : Nat} {counts : List Nat} :
      UnitPass.proxyMembers.run u c = .ok (changes, v, c) → Rounds c v counts w → Rounds c u (changes :: counts) w

theorem proxyMembers_eq_ok :
    UnitPass.proxyMembers.run u c = .ok (changes, v, c') ↔ run u = .ok (changes, v) ∧ c' = c := by
  unfold UnitPass.proxyMembers
  rw [bind_eq_ok]
  constructor
  · rintro ⟨⟨k, w⟩, hrun, h⟩
    cases h
    exact ⟨hrun, rfl⟩
  · rintro ⟨hrun, rfl⟩
    exact ⟨(changes, v), hrun, rfl⟩

variable {c : Context} {counts : List Nat} {all : Finset Signature}

theorem Rounds.load_add_le (h : Rounds c u counts v) (hall : ∀ k ∈ (CallGraph.of u.name u.methods).sites, k ∈ all) :
    load all v + counts.sum ≤ load all u := by
  induction h with
  | start => simp
  | next hrun _ ih =>
    obtain ⟨_, hround⟩ := redirects_of_run (proxyMembers_eq_ok.mp hrun).1
    obtain ⟨hload, hsites⟩ := hround.load_add_le hall
    have := ih hsites
    rw [sum_cons]
    omega

/-- Where there is a round, no method has too many arguments to be a forwarder. -/
theorem Rounds.none_forwardsPastLastSlot (h : Rounds c u counts v)
    (hlast : UnitPass.proxyMembers.run v c = .ok (changes, w, c')) : ∀ m ∈ u.methods, ¬ m.ForwardsPastLastSlot := by
  intro m hm hpast
  have herror := run_eq_error.mpr ⟨rfl, m, hm, hpast⟩
  cases h with
  | start =>
    rw [(proxyMembers_eq_ok.mp hlast).1] at herror
    cases herror
  | next hrun =>
    rw [(proxyMembers_eq_ok.mp hrun).1] at herror
    cases herror

/-- The most that all rounds together can count. -/
def limit (u : ClassUnit) : Nat :=
  (CallGraph.of u.name u.methods).sites.length ^ 2 + u.methods.length + u.fields.length

theorem mem_sites_toFinset (u : ClassUnit) : ∀ k ∈ (CallGraph.of u.name u.methods).sites,
    k ∈ (CallGraph.of u.name u.methods).sites.toFinset := fun _ hk => mem_toFinset.mpr hk

theorem load_le_limit (u : ClassUnit) : load (CallGraph.of u.name u.methods).sites.toFinset u ≤ limit u := by
  have hweight := weight_le (of u.name u.methods).sites.toFinset (of u.name u.methods)
  have hcard := toFinset_card_le (of u.name u.methods).sites
  have := Nat.mul_le_mul_left (of u.name u.methods).sites.length hcard
  unfold load limit
  rw [pow_two]
  omega

theorem Rounds.sum_le_limit (h : Rounds c u counts v) : counts.sum ≤ limit u := by
  have hload := h.load_add_le (mem_sites_toFinset u)
  have := load_le_limit u
  omega

/-- Rounds that change something lead to one that changes nothing: each of them takes something off the load. -/
theorem exists_rounds (c : Context) (hall : ∀ k ∈ (CallGraph.of u.name u.methods).sites, k ∈ all)
    (hu : ∀ m ∈ u.methods, ¬ m.ForwardsPastLastSlot) :
    ∃ counts v w, Rounds c u counts v ∧ run v = .ok (0, w) ∧ 0 ∉ counts := by
  induction hload : load all u using Nat.strong_induction_on generalizing u with
  | _ n ih =>
    cases hrun : run u with
    | error e =>
      obtain ⟨-, m, hm, hpast⟩ := run_eq_error.mp hrun
      exact absurd hpast (hu m hm)
    | ok result =>
      obtain ⟨changes, v⟩ := result
      by_cases hchanges : changes = 0
      · subst hchanges
        exact ⟨[], u, v, .start u, hrun, not_mem_nil⟩
      · obtain ⟨_, hround⟩ := redirects_of_run hrun
        obtain ⟨hless, hsites⟩ := hround.load_add_le hall
        obtain ⟨counts, v', w, hrounds, hzero, hpos⟩ :=
          ih (load all v) (by omega) hsites (hround.none_forwardsPastLastSlot hu) rfl
        refine ⟨changes :: counts, v', w, .next (proxyMembers_eq_ok.mpr ⟨hrun, rfl⟩) hrounds, hzero, ?_⟩
        rw [mem_cons, not_or]
        exact ⟨fun h => hchanges h.symm, hpos⟩

/-- Forwarders are taken out in finitely many rounds, however they call each other, after which a round
changes nothing: unless a method that may be a forwarder has more slots of arguments than there are, at which
there is no round at all. What the rounds count together is bounded by the calls and members of the class.
Every call that a round redirects is one of a forwarder, becomes the call that this forwarder makes, and then
leads to no forwarder. -/
theorem proxyMembers_settles (u : ClassUnit) (c : Context) :
    ((∃ counts v w, counts.length ≤ limit u ∧ Rounds c u counts v ∧
        UnitPass.proxyMembers.run v c = .ok (0, w, c)) ↔ ∀ m ∈ u.methods, ¬ m.ForwardsPastLastSlot) ∧
    (∀ counts v, Rounds c u counts v → counts.sum ≤ limit u) ∧
    ∀ changes v c', UnitPass.proxyMembers.run u c = .ok (changes, v, c') → ∃ fs, Redirects fs u changes v := by
  refine ⟨⟨?_, fun hu => ?_⟩, fun counts v h => h.sum_le_limit, fun changes v c' h => ?_⟩
  · rintro ⟨counts, v, w, -, hrounds, hzero⟩
    exact hrounds.none_forwardsPastLastSlot hzero
  · obtain ⟨counts, v, w, hrounds, hzero, hpos⟩ := exists_rounds c (mem_sites_toFinset u) hu
    refine ⟨counts, v, w, ?_, hrounds, proxyMembers_eq_ok.mpr ⟨hzero, rfl⟩⟩
    exact (length_le_sum_of_one_le counts fun k hk => pos_of_ne_zero fun h => hpos (h ▸ hk)).trans
      hrounds.sum_le_limit
  · exact redirects_of_run (proxyMembers_eq_ok.mp h).1

/-- A private static method without parameters that calls another one of the class `A`. -/
def passingOn (name target : String) : Method :=
  { (default : Method) with
    access := .ofBits 10
    name
    descriptor := "()V"
    body := some
      { maxStack := 0
        maxLocals := 0
        code := Listing.ofInstrs [.invoke .static ⟨"A", target, "()V"⟩ false, .leave none] } }

/-- Two forwarders in a row that a third method leads to, and two that call each other. -/
def chainedClass : ClassUnit :=
  { (default : ClassUnit) with
    name := "A"
    methods := [{ passingOn "main" "a" with access := .ofBits 9 }, passingOn "a" "b", passingOn "b" "c",
      passingOn "p" "q", passingOn "q" "p"] }

/-- A chain of forwarders is shortened from its end, and two that call each other are left alone. -/
theorem chainedClass_settles :
    (∀ m ∈ chainedClass.methods, ¬ m.ForwardsPastLastSlot) ∧
    (∃ counts v w, counts.length ≤ limit chainedClass ∧ Rounds default chainedClass counts v ∧
      UnitPass.proxyMembers.run v default = .ok (0, w, default)) ∧
    ∃ v fs, UnitPass.proxyMembers.run chainedClass default = .ok (2, v, default) ∧
      Redirects fs chainedClass 2 v := by
  obtain ⟨hsettles, -, hround⟩ := proxyMembers_settles chainedClass default
  have hfirst : ∃ v, run chainedClass = .ok (2, v) := ⟨_, by rfl⟩
  obtain ⟨v, hv⟩ := hfirst
  have hnone : ∀ m ∈ chainedClass.methods, ¬ m.ForwardsPastLastSlot := by
    intro m hm hpast
    rw [run_eq_error.mpr ⟨rfl, m, hm, hpast⟩] at hv
    cases hv
  have hpass := (proxyMembers_eq_ok (c := default)).mpr ⟨hv, rfl⟩
  obtain ⟨fs, hfs⟩ := hround 2 v default hpass
  exact ⟨hnone, hsettles.mpr hnone, v, fs, hpass, hfs⟩

example : (do
    let (first, u) ← run chainedClass
    let (second, u) ← run u
    let (third, u) ← run u
    return ([first, second, third], u.methods.map Method.name)) =
      (.ok ([2, 2, 0], ["main", "p", "q"]) : Except Error (List Nat × List String)) := by
  decide +kernel

/-- A private method with parameters, which calls a method without them. -/
def passingOnWith (d : MethodDescriptor) : Method := { passingOn "m" "f" with descriptor := d.text }

theorem passingOnWith_forwardsPastLastSlot {d : MethodDescriptor} (hparse : MethodDescriptor.parse d.text = .ok d)
    (hslots : 65535 < d.argSlots) : (passingOnWith d).ForwardsPastLastSlot := by
  have hcandidate : ((passingOn "m" "f").access.isPrivate && (passingOn "m" "f").name.toList.head? != some '<') =
      true := by decide +kernel
  refine ⟨_, d, rfl, ?_, ?_, lt_of_lt_of_le hslots (Nat.le_add_left _ _)⟩
  · rw [passingOnWith, hparse]
    rfl
  · exact Bool.and_eq_true_iff.mpr ⟨hcandidate, rfl⟩

theorem argSlots_replicate_long (n : Nat) (result : Option FieldType) :
    MethodDescriptor.argSlots ⟨List.replicate n .long, result⟩ = 2 * n := by
  induction n with
  | zero => rfl
  | succ n ih =>
    simp only [MethodDescriptor.argSlots, replicate_succ, foldr_cons] at ih ⊢
    rw [FieldType.slots]
    omega

theorem parse_replicate_long (n : Nat) :
    MethodDescriptor.parse (MethodDescriptor.text ⟨List.replicate n .long, none⟩) =
      .ok ⟨List.replicate n .long, none⟩ :=
  MethodDescriptor.parse_text (fun t ht => by rw [eq_of_mem_replicate ht]; trivial) fun t ht => nomatch ht

/-- A class with a private method that has so many arguments of two slots. -/
def crowdedClass (n : Nat) : ClassUnit :=
  { (default : ClassUnit) with name := "A", methods := [passingOnWith ⟨List.replicate n .long, none⟩] }

/-- At a method with too many arguments there is no round at all, so none that changes nothing. -/
theorem not_settles_of_crowded {n : Nat} (hn : 65535 < 2 * n) (c : Context) :
    UnitPass.proxyMembers.run (crowdedClass n) c = .error .slotOverflow ∧
      ¬ ∃ counts v w, Rounds c (crowdedClass n) counts v ∧ UnitPass.proxyMembers.run v c = .ok (0, w, c) := by
  have hpast : ∃ m ∈ (crowdedClass n).methods, m.ForwardsPastLastSlot := by
    refine ⟨_, mem_singleton.mpr rfl, passingOnWith_forwardsPastLastSlot (parse_replicate_long n) ?_⟩
    rwa [argSlots_replicate_long]
  have hrun : run (crowdedClass n) = .error .slotOverflow := run_eq_error.mpr ⟨rfl, hpast⟩
  refine ⟨by simp only [UnitPass.proxyMembers, hrun, bind, Except.bind], ?_⟩
  rintro ⟨counts, v, w, hrounds, hzero⟩
  obtain ⟨m, hm, hm'⟩ := hpast
  exact hrounds.none_forwardsPastLastSlot hzero m hm hm'

theorem crowdedClass_not_settles :
    UnitPass.proxyMembers.run (crowdedClass 32768) default = .error .slotOverflow ∧
      ¬ ∃ counts v w, Rounds default (crowdedClass 32768) counts v ∧
        UnitPass.proxyMembers.run v default = .ok (0, w, default) :=
  not_settles_of_crowded (by decide) default

end Forwarder

end Untangle
