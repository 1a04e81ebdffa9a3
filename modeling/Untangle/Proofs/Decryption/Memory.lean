import Untangle.Proofs.ClassUnit.Rewriting
import Untangle.Proofs.Decryption.CallKey

/-!
# What the memory of calls changes

The outcome of a call depends on the routine, the arguments, and the tables that the routine reads. The
outcome is remembered by routine and arguments, while passes over the class may change what is in the
tables, or whether they can be read at all.

So a call may get an outcome that it had once and would not have now. Nothing else can go wrong: a run
replaces the same calls by the same strings as it would with nothing remembered, if and only if each of
the calls it would come upon then is either not remembered, or remembered with the string it has now. What
is remembered of a call was worked out in an earlier run, for the same routine and the same arguments,
with the tables of that time.
-/

namespace Untangle

open List

variable {r : Routine} {call : Call} {passed : List Node} {p : Progress} {site : Site} {u' : ClassUnit} {s' : Signature}
  {call' : Call} {ns : List Node} {ms : List Method} {c' : Context} {outcome : Option Plaintext}
  {state : ClassUnit × Context} {P : Progress → Prop}

namespace DecryptionCache

/-- The outcome that a call gets: what is remembered, or else what decrypting gives. -/
def outcomeOf (c : DecryptionCache) (key : CallKey) (call : Call) : Option Plaintext :=
  (c.find? key).getD (decrypt call)

theorem getOrCompute_fst (c : DecryptionCache) (key : CallKey) (call : Call) :
    (c.getOrCompute key fun _ => decrypt call).1 = c.outcomeOf key call := by
  unfold getOrCompute outcomeOf
  split
  · next h => rw [h, Option.getD_some]
  · next h => rw [h, Option.getD_none]

theorem find?_getOrCompute (c : DecryptionCache) (key key' : CallKey) (call : Call) :
    (c.getOrCompute key fun _ => decrypt call).2.find? key' =
      if c.find? key = none ∧ key' = key then some (decrypt call) else c.find? key' := by
  unfold getOrCompute
  split
  · next outcome h =>
    rw [if_neg (by simp [h])]
    rfl
  · next h =>
    by_cases hkey : key' = key
    · rw [if_pos ⟨h, hkey⟩, hkey]
      exact lookup_cons_self
    · rw [if_neg fun hboth => hkey hboth.2, find?, lookup_cons, beq_false_of_ne hkey]
      rfl

end DecryptionCache

/-- The instruction that takes the place of a call. -/
def Plaintext.instr (p : Plaintext) : Instr := .push (.text (.ofString p.text))

theorem Plaintext.map_instr_eq_iff {o o' : Option Plaintext} :
    o.map instr = o'.map instr ↔ o.map Plaintext.text = o'.map Plaintext.text := by
  have hpush : Function.Injective fun text => (.push (.text (.ofString text)) : Instr) := by
    intro s t h
    simp only [Instruction.push.injEq, Literal.text.injEq] at h
    rw [← Utf16.lossy_ofString s, h, Utf16.lossy_ofString]
  have hmap (o : Option Plaintext) :
      o.map instr = (o.map text).map fun text => (.push (.text (.ofString text)) : Instr) := by
    cases o <;> rfl
  rw [hmap, hmap, (Option.map_injective hpush).eq_iff]

namespace Strings

variable {s : Signature} {u : ClassUnit} {k : Known} {method : String} {referenced : Label → Bool} {q : Progress}

/-! ### Calls and their keys -/

/-- The key under which the outcome of a call is kept. -/
def keyOf (s : Signature) (call : Call) : CallKey := .of call.className s.name s.descriptor call.arguments

/-- The call goes to one of the routines, with any arguments. -/
def Known.Makes (k : Known) (s : Signature) (call : Call) : Prop :=
  ∃ r arguments, k.routine? s = some r ∧ call = k.call s r arguments

theorem Known.mem_routines (h : k.routine? s = some r) : (s, r) ∈ k.routines := by
  obtain ⟨_, _, hsplit, -⟩ := lookup_eq_some_iff.mp h
  exact mem_reverse.mp (by simp [hsplit])

/-- The routines are among the methods of the class. -/
theorem Known.exists_method (h : (Known.of u).routine? s = some r) :
    ∃ m ∈ u.methods, Routine.of? u.name (StaticData.tables u) m = some r ∧ m.signature = s := by
  obtain ⟨m, hm, hroutine⟩ := mem_filterMap.mp (mem_routines h)
  obtain ⟨_, hr, heq⟩ := Option.map_eq_some_iff.mp hroutine
  cases heq
  exact ⟨m, hm, hr, rfl⟩

theorem Known.opensOnce (h : (Known.of u).routine? s = some r) : OpensOnce s.descriptor := by
  obtain ⟨m, -, hr, rfl⟩ := exists_method h
  exact Routine.opensOnce hr

/-- Calls with the same key differ in the tables at most, even if they are made at different times. -/
theorem Known.Makes.eq_of_keyOf (h : (Known.of u).Makes s call) (h' : (Known.of u').Makes s' call')
    (hkey : keyOf s call = keyOf s' call') : s = s' ∧ call.arguments = call'.arguments := by
  obtain ⟨r, _, hr, rfl⟩ := h
  obtain ⟨_, _, hr', rfl⟩ := h'
  obtain ⟨-, hname, hdescriptor, harguments⟩ := CallKey.of_inj (opensOnce hr) (opensOnce hr') hkey
  refine ⟨?_, harguments⟩
  cases s
  cases s'
  exact congrArg₂ Signature.mk hname hdescriptor

theorem Known.Makes.eq_of_keyOf_self (h : (Known.of u).Makes s call) (h' : (Known.of u).Makes s' call')
    (hkey : keyOf s call = keyOf s' call') : call = call' := by
  obtain ⟨rfl, harguments⟩ := h.eq_of_keyOf h' hkey
  obtain ⟨r, arguments, hr, rfl⟩ := h
  obtain ⟨_, arguments', hr', rfl⟩ := h'
  rw [hr] at hr'
  cases hr'
  have harguments : arguments = arguments' := harguments
  rw [harguments]

theorem makes_of_callAt? (h : callAt? k referenced passed n = some (s, call, rest)) : k.Makes s call := by
  obtain ⟨-, -, r, -, arguments, -, -, hr, -, -, hcall⟩ := callAt?_eq_some h
  exact ⟨r, arguments, hr, hcall⟩

/-! ### A step of a walk -/

/-- A call that could be made, and what was put in its place, if anything. -/
structure Site where
  signature : Signature
  call : Call
  replacement : Option Instr

/-- The key of the call. -/
def Site.key (site : Site) : CallKey := keyOf site.signature site.call

/-- The call is not remembered, or with the string that it has now. -/
def Site.RightIn (site : Site) (c : DecryptionCache) : Prop :=
  ∀ outcome, c.find? site.key = some outcome → outcome.map Plaintext.text = (decrypt site.call).map Plaintext.text

instance (site : Site) (c : DecryptionCache) : Decidable (site.RightIn c) :=
  inferInstanceAs (Decidable (∀ outcome ∈ c.find? site.key,
    outcome.map Plaintext.text = (decrypt site.call).map Plaintext.text))

/-- What a walk makes of a node, if it is a call. -/
def siteAt (k : Known) (method : String) (referenced : Label → Bool) (p : Progress) (passed : List Node) (n : Node) :
    Option Site :=
  (callAt? k referenced passed n).map fun (s, call, _) =>
    ⟨s, call, ((rule k method referenced p passed n).2.bind List.head?).bind Node.content⟩

section Step

variable {rest : List Node} {n : Node}

theorem rule_of_none (h : callAt? k referenced passed n = none) : rule k method referenced p passed n = (p, none) := by
  rw [rule, h]

theorem rule_of_some (method : String) (p : Progress) (h : callAt? k referenced passed n = some (s, call, rest)) :
    (rule k method referenced p passed n).2 =
        (p.context.cache.outcomeOf (keyOf s call) call).map
          (fun plain => { n with content := some plain.instr } :: rest) ∧
      (rule k method referenced p passed n).1.used =
        (if (p.context.cache.outcomeOf (keyOf s call) call).isSome then s :: p.used else p.used) ∧
      (rule k method referenced p passed n).1.context.cache =
        (p.context.cache.getOrCompute (keyOf s call) fun _ => decrypt call).2 := by
  obtain ⟨r, _, -, rfl⟩ := makes_of_callAt? h
  rw [rule, h, ← DecryptionCache.getOrCompute_fst]
  simp only [keyOf, Known.call]
  split <;> simp_all [Plaintext.instr]

theorem siteAt_of_none (h : callAt? k referenced passed n = none) : siteAt k method referenced p passed n = none := by
  rw [siteAt, h, Option.map_none]

theorem siteAt_of_some (h : callAt? k referenced passed n = some (s, call, rest)) :
    siteAt k method referenced p passed n =
      some ⟨s, call, (p.context.cache.outcomeOf (keyOf s call) call).map Plaintext.instr⟩ := by
  rw [siteAt, h, (rule_of_some method p h).1]
  cases p.context.cache.outcomeOf (keyOf s call) call <;> rfl

/-- Every call gets the outcome that it has with what was remembered in the beginning. -/
def Known.Recalls (k : Known) (c : DecryptionCache) (p : Progress) : Prop :=
  ∀ s call, k.Makes s call → p.context.cache.outcomeOf (keyOf s call) call = c.outcomeOf (keyOf s call) call

/-- What was remembered in the beginning, or worked out for a call since. -/
def Known.Adds (k : Known) (c : DecryptionCache) (p : Progress) : Prop :=
  ∀ key outcome, p.context.cache.find? key = some outcome → c.find? key = some outcome ∨
    ∃ s call, k.Makes s call ∧ key = keyOf s call ∧ outcome = decrypt call

/-- A call that is remembered now has the outcome it would have had: its key is that of no other call. -/
theorem Known.Recalls.rule (h : (Known.of u).Recalls c p) :
    (Known.of u).Recalls c (rule (Known.of u) method referenced p passed n).1 := by
  cases hcall : callAt? (of u) referenced passed n with
  | none => rwa [rule_of_none hcall]
  | some =>
    intro s' call' hmakes
    rw [← h s' call' hmakes, (rule_of_some method p hcall).2.2]
    simp only [DecryptionCache.outcomeOf, DecryptionCache.find?_getOrCompute]
    split
    · next hnew =>
      rw [hnew.2, hnew.1, hmakes.eq_of_keyOf_self (makes_of_callAt? hcall) hnew.2]
      rfl
    · rfl

theorem Known.Adds.rule (h : k.Adds c p) : k.Adds c (rule k method referenced p passed n).1 := by
  cases hcall : callAt? k referenced passed n with
  | none => rwa [rule_of_none hcall]
  | some found =>
    obtain ⟨s, call, _⟩ := found
    intro key outcome hfind
    rw [(rule_of_some method p hcall).2.2, DecryptionCache.find?_getOrCompute] at hfind
    split at hfind
    · next hnew =>
      cases hfind
      exact .inr ⟨s, call, makes_of_callAt? hcall, hnew.2, rfl⟩
    · exact h key outcome hfind

variable {c : DecryptionCache}

/-- The same is put in the place of a node, just if what is remembered of the call is right. -/
theorem siteAt_alike_iff (hp : (Known.of u).Recalls c p) (hq : (Known.of u).Recalls {} q) :
    (siteAt (Known.of u) method referenced p passed n).bind Site.replacement =
        (siteAt (Known.of u) method referenced q passed n).bind Site.replacement ↔
      ∀ site, siteAt (Known.of u) method referenced q passed n = some site → site.RightIn c := by
  cases hcall : callAt? (Known.of u) referenced passed n with
  | none => simp [siteAt_of_none hcall]
  | some found =>
    obtain ⟨s, call, _⟩ := found
    have hmakes := makes_of_callAt? hcall
    rw [siteAt_of_some hcall, siteAt_of_some hcall, hp s call hmakes, hq s call hmakes]
    simp only [Option.bind_some, Option.some.injEq, forall_eq', Plaintext.map_instr_eq_iff]
    rw [Site.RightIn, Site.key]
    simp only [DecryptionCache.outcomeOf]
    cases c.find? (keyOf s call) <;> simp [DecryptionCache.find?]

theorem rule_alike (h : (siteAt k method referenced p passed n).bind Site.replacement =
      (siteAt k method referenced q passed n).bind Site.replacement) :
    (rule k method referenced p passed n).2 = (rule k method referenced q passed n).2 ∧
      (p.used = q.used →
        (rule k method referenced p passed n).1.used = (rule k method referenced q passed n).1.used) := by
  cases hcall : callAt? k referenced passed n with
  | none => simp [rule_of_none hcall]
  | some found =>
    obtain ⟨s, call, _⟩ := found
    rw [siteAt_of_some hcall, siteAt_of_some hcall] at h
    obtain ⟨hplaced, hused, -⟩ := rule_of_some method p hcall
    obtain ⟨hplaced', hused', -⟩ := rule_of_some method q hcall
    cases hr : p.context.cache.outcomeOf (keyOf s call) call <;>
      cases hr' : q.context.cache.outcomeOf (keyOf s call) call <;> simp_all

end Step

/-! ### Walks -/

/-- What a walk makes of each node. -/
def sites (k : Known) (method : String) (referenced : Label → Bool) (p : Progress) (passed : List Node) :
    List Node → List (Option Site)
  | [] => []
  | n :: rest =>
    siteAt k method referenced p passed n ::
      sites k method referenced (rule k method referenced p passed n).1
        ((rule k method referenced p passed n).2.getD (n :: passed)) rest

/-- What is put in the place of each node, if anything. -/
def replacements (sites : List (Option Site)) : List (Option Instr) := sites.map (·.bind Site.replacement)

/-- What every step keeps holds after a body. -/
theorem keeps_sweepWith (h : ∀ {method referenced p passed n}, P p → P (rule k method referenced p passed n).1)
    (hp : P p) (method : String) (b : Body) : P (b.sweepWith (rule k method) p).1 := by
  rw [b.sweepWith_fst]
  refine sweepWith_keeps (P := fun p _ => P p) ?_ ?_ p 0 [] b.nodes hp
  · intro p passed n _ p' _ hr hp
    have hnext : P (rule k method b.referencedSet.contains p passed n).1 := h hp
    rwa [hr] at hnext
  · intro p passed n _ p' hr hp
    have hnext : P (rule k method b.referencedSet.contains p passed n).1 := h hp
    rwa [hr] at hnext

/-- What every step keeps holds after all methods. -/
theorem keeps_decryptMethods (h : ∀ {method referenced p passed n}, P p → P (rule k method referenced p passed n).1)
    (hp : P p) (changes : Nat) (done ms : List Method) : P (decryptMethods k p changes done ms).1 := by
  induction ms generalizing p changes done with
  | nil => exact hp
  | cons m ms ih =>
    unfold decryptMethods
    split
    · exact ih (keeps_sweepWith h hp m.name _) _ _
    · exact ih hp changes (m :: done)

section Walk

variable {c : DecryptionCache}

/-- Two walks put the same in the place of every node, just if what the first one remembers is right for
every call that the second one comes upon. -/
theorem replacements_alike_iff (hp : (Known.of u).Recalls c p) (hq : (Known.of u).Recalls {} q)
    (passed ns : List Node) :
    replacements (sites (Known.of u) method referenced p passed ns) =
        replacements (sites (Known.of u) method referenced q passed ns) ↔
      ∀ site, some site ∈ sites (Known.of u) method referenced q passed ns → site.RightIn c := by
  induction ns generalizing p q passed with
  | nil => simp [sites]
  | cons n ns ih =>
    simp only [sites, replacements, map_cons, cons.injEq, mem_cons] at ih ⊢
    constructor
    · rintro ⟨hhead, htail⟩ site hsite
      rw [(rule_alike hhead).1] at htail
      rcases hsite with hsite | hsite
      · exact (siteAt_alike_iff hp hq).mp hhead site hsite.symm
      · exact (ih hp.rule hq.rule _).mp htail site hsite
    · intro hall
      have hhead := (siteAt_alike_iff hp hq).mpr fun site hsite => hall site (.inl hsite.symm)
      refine ⟨hhead, ?_⟩
      rw [(rule_alike hhead).1]
      exact (ih hp.rule hq.rule _).mpr fun site hsite => hall site (.inr hsite)

/-- Walks that put the same in the place of every node leave the same behind. -/
theorem sweepWith_alike
    (h : replacements (sites k method referenced p passed ns) = replacements (sites k method referenced q passed ns))
    (hused : p.used = q.used) (changes : Nat) :
    (sweepWith (rule k method referenced) p changes passed ns).2 =
        (sweepWith (rule k method referenced) q changes passed ns).2 ∧
      (sweepWith (rule k method referenced) p changes passed ns).1.used =
        (sweepWith (rule k method referenced) q changes passed ns).1.used := by
  induction ns generalizing p q passed changes with
  | nil => exact ⟨rfl, hused⟩
  | cons n ns ih =>
    simp only [sites, replacements, map_cons, cons.injEq] at ih h
    obtain ⟨hplaced, hnext⟩ := rule_alike h.1
    rw [sweepWith_cons, sweepWith_cons]
    rw [hplaced] at h ⊢
    exact ih h.2 (hnext hused) _

end Walk

/-! ### Runs -/

/-- What a run makes of each node of each method. -/
def sitesOf (k : Known) (p : Progress) : List Method → List (List (Option Site))
  | [] => []
  | m :: rest =>
    match m.body, k.routine? m.signature with
    | some b, none =>
      sites k m.name b.referencedSet.contains p [] b.nodes :: sitesOf k (b.sweepWith (rule k m.name) p).1 rest
    | _, _ => [] :: sitesOf k p rest

/-- What a run makes of a class. -/
def sitesIn (u : ClassUnit) (c : Context) : List (List (Option Site)) := sitesOf (Known.of u) ⟨c, []⟩ u.methods

/-- What a run puts in the place of each node of each method, if anything. -/
def rewrites (u : ClassUnit) (c : Context) : List (List (Option Instr)) := (sitesIn u c).map replacements

/-- The calls that a run with nothing remembered comes upon. -/
def callsMet (u : ClassUnit) : List Site := (sitesIn u {}).flatten.filterMap id

section Run

variable {c : DecryptionCache}

theorem rewrites_alike_iff (hp : (Known.of u).Recalls c p) (hq : (Known.of u).Recalls {} q) (ms : List Method) :
    (sitesOf (Known.of u) p ms).map replacements = (sitesOf (Known.of u) q ms).map replacements ↔
      ∀ row ∈ sitesOf (Known.of u) q ms, ∀ site, some site ∈ row → site.RightIn c := by
  induction ms generalizing p q with
  | nil => simp [sitesOf]
  | cons m ms ih =>
    unfold sitesOf
    split
    · next b hb hroutine =>
      have hp' := keeps_sweepWith .rule hp m.name b
      have hq' := keeps_sweepWith .rule hq m.name b
      simp only [map_cons, cons.injEq, forall_mem_cons]
      rw [replacements_alike_iff hp hq, ih hp' hq']
    · simp only [map_cons, cons.injEq]
      rw [ih hp hq]
      simp

theorem decryptMethods_alike (h : (sitesOf k p ms).map replacements = (sitesOf k q ms).map replacements)
    (hused : p.used = q.used) (changes : Nat) (done : List Method) :
    (decryptMethods k p changes done ms).2 = (decryptMethods k q changes done ms).2 ∧
      (decryptMethods k p changes done ms).1.used = (decryptMethods k q changes done ms).1.used := by
  induction ms generalizing p q changes done with
  | nil => exact ⟨rfl, hused⟩
  | cons m ms ih =>
    cases hb : m.body with
    | none =>
      simp only [sitesOf, decryptMethods, hb, map_cons, cons.injEq] at h ⊢
      exact ih h.2 hused changes (m :: done)
    | some b =>
      cases hroutine : k.routine? m.signature with
      | some r =>
        simp only [sitesOf, decryptMethods, hb, hroutine, map_cons, cons.injEq] at h ⊢
        exact ih h.2 hused changes (m :: done)
      | none =>
        simp only [sitesOf, decryptMethods, hb, hroutine, map_cons, cons.injEq] at h ⊢
        obtain ⟨hwalk, hnext⟩ := sweepWith_alike h.1 hused 0
        have hbody := b.sweepWith_snd_congr (rule k m.name) hwalk
        rw [← b.sweepWith_fst, ← b.sweepWith_fst] at hnext
        simp only [hbody]
        exact ih h.2 hnext _ _

/-- Runs that put the same in the place of every node have the same result. -/
theorem run_alike {c : Context} (h : rewrites u c = rewrites u c') :
    (run u c).1 = (run u c').1 ∧ (run u c).2.1 = (run u c').2.1 := by
  obtain ⟨hmethods, hused⟩ := decryptMethods_alike h rfl 0 []
  unfold run
  dsimp only
  split
  · exact ⟨rfl, rfl⟩
  · generalize decryptMethods (Known.of u) ⟨c, []⟩ 0 [] u.methods = d at hmethods hused
    generalize decryptMethods (Known.of u) ⟨c', []⟩ 0 [] u.methods = d' at hmethods hused
    obtain ⟨p, _, _⟩ := d
    obtain ⟨_, _, _⟩ := d'
    cases hmethods
    rw [hused]
    split <;> exact ⟨rfl, rfl⟩

/-- What is remembered after a run was remembered before, or was worked out in it. -/
theorem find?_run {c : Context} {key : CallKey} (h : (run u c).2.2.cache.find? key = some outcome) :
    c.cache.find? key = some outcome ∨
      ∃ s call, (Known.of u).Makes s call ∧ key = keyOf s call ∧ outcome = decrypt call := by
  have hadds : (Known.of u).Adds c.cache (decryptMethods (Known.of u) ⟨c, []⟩ 0 [] u.methods).1 :=
    keeps_decryptMethods .rule (fun _ _ => .inl) 0 [] u.methods
  unfold run at h
  dsimp only at h
  split at h
  · exact .inl h
  · split at h
    · exact hadds key outcome h
    · exact hadds key outcome h

end Run

/-! ### Histories -/

/-- No pass but the one over strings touches what is remembered. -/
theorem context_of_run {pass : UnitPass} (hpass : pass ∈ UnitPass.all) {c : Context} {changes : Nat}
    (h : pass.run u c = .ok (changes, u', c')) : c' = c ∨ (u', c') = (run u c).2 := by
  have htotal {name : String} {f : ClassUnit → Nat × ClassUnit}
      (h : (UnitPass.ofTotal name f).run u c = .ok (changes, u', c')) : c' = c := by
    cases h
    rfl
  simp only [UnitPass.all, mem_cons, not_mem_nil, or_false] at hpass
  rcases hpass with rfl | rfl | rfl | rfl | rfl | rfl | rfl | rfl
  · have hrun : run u c = (changes, u', c') := Except.ok.inj h
    exact .inr (by rw [hrun])
  · exact .inl (htotal h)
  · exact .inl (htotal h)
  · exact .inl (htotal h)
  · exact .inl (htotal h)
  · exact .inl (htotal h)
  · exact .inl (htotal h)
  · obtain ⟨_, -, h⟩ := bind_eq_ok.mp h
    cases h
    exact .inl rfl

theorem step_run (u : ClassUnit) (c : Context) : Step (u, c) (run u c).2 :=
  .overClass (by simp [UnitPass.all] : UnitPass.stringDecryption ∈ UnitPass.all) rfl

theorem context_of_step {state' : ClassUnit × Context} (h : Step state state') :
    state'.2 = state.2 ∨ state' = (run state.1 state.2).2 := by
  cases h with
  | overBody => exact .inl rfl
  | overClass hpass hrun => exact context_of_run hpass hrun

/-- Whatever is remembered was worked out in an earlier run, with what was known then. -/
theorem remembered_from {u₀ : ClassUnit} (h : Relation.ReflTransGen Step (u₀, {}) state) {key : CallKey}
    (hfind : state.2.cache.find? key = some outcome) :
    ∃ u₁ c₁, Relation.ReflTransGen Step (u₀, {}) (u₁, c₁) ∧ Relation.ReflTransGen Step (run u₁ c₁).2 state ∧
      ∃ s call, (Known.of u₁).Makes s call ∧ key = keyOf s call ∧ outcome = decrypt call := by
  induction h with
  | refl => cases hfind
  | tail hbefore hstep ih =>
    rename_i before _
    by_cases hold : before.2.cache.find? key = some outcome
    · obtain ⟨u₁, c₁, hto, hfrom, hcall⟩ := ih hold
      exact ⟨u₁, c₁, hto, hfrom.tail hstep, hcall⟩
    · rcases context_of_step hstep with hsame | hrun
      · rw [hsame] at hfind
        exact absurd hfind hold
      · rw [hrun] at hfind
        exact ⟨before.1, before.2, hbefore, hrun ▸ .refl, (find?_run hfind).resolve_left hold⟩

theorem makes_of_mem_sites (h : some site ∈ sites k method referenced p passed ns) :
    k.Makes site.signature site.call := by
  induction ns generalizing p passed with
  | nil => cases h
  | cons n ns ih =>
    rcases mem_cons.mp h with h | h
    · obtain ⟨⟨s, _, _⟩, hcall, rfl⟩ := Option.map_eq_some_iff.mp h.symm
      exact makes_of_callAt? hcall
    · exact ih h

theorem makes_of_mem_sitesOf {row : List (Option Site)} (hrow : row ∈ sitesOf k p ms) (h : some site ∈ row) :
    k.Makes site.signature site.call := by
  induction ms generalizing p with
  | nil => cases hrow
  | cons m ms ih =>
    unfold sitesOf at hrow
    split at hrow
    · rcases mem_cons.mp hrow with rfl | hrow
      · exact makes_of_mem_sites h
      · exact ih hrow
    · rcases mem_cons.mp hrow with rfl | hrow
      · cases h
      · exact ih hrow

theorem mem_callsMet : site ∈ callsMet u ↔ ∃ row ∈ sitesIn u {}, some site ∈ row := by
  simp [callsMet]

/-- A run after any history replaces the same calls by the same strings as it would with nothing remembered, if
and only if every call that it would come upon then is not remembered or remembered with the string it has
now; and then the result is the same. What is remembered of such a call is what it gave in an earlier run, for
the same routine and the same arguments, with what the routine read then. -/
theorem rewrites_after_history {u₀ u : ClassUnit} {c : Context} (h : Relation.ReflTransGen Step (u₀, {}) (u, c)) :
    (rewrites u c = rewrites u {} ↔ ∀ site ∈ callsMet u, site.RightIn c.cache) ∧
    (rewrites u c = rewrites u {} → (run u c).1 = (run u {}).1 ∧ (run u c).2.1 = (run u {}).2.1) ∧
    ∀ site ∈ callsMet u, ∀ outcome, c.cache.find? site.key = some outcome →
      ∃ u₁ c₁ r, Relation.ReflTransGen Step (u₀, {}) (u₁, c₁) ∧ Relation.ReflTransGen Step (run u₁ c₁).2 (u, c) ∧
        (Known.of u₁).routine? site.signature = some r ∧
        outcome = decrypt ((Known.of u₁).call site.signature r site.call.arguments) := by
  refine ⟨?_, run_alike, ?_⟩
  · have halike : rewrites u c = rewrites u {} ↔
        ∀ row ∈ sitesIn u {}, ∀ site, some site ∈ row → site.RightIn c.cache :=
      rewrites_alike_iff (fun _ _ _ => rfl) (fun _ _ _ => rfl) u.methods
    rw [halike]
    simp only [mem_callsMet]
    exact ⟨fun hall site ⟨row, hrow, hsite⟩ => hall row hrow site hsite,
      fun hall row hrow site hsite => hall site ⟨row, hrow, hsite⟩⟩
  · intro site hsite outcome hfind
    obtain ⟨row, hrow, hsite⟩ := mem_callsMet.mp hsite
    have hmakes : (Known.of u).Makes site.signature site.call := makes_of_mem_sitesOf hrow hsite
    obtain ⟨u₁, c₁, hto, hfrom, s, _, hmakes₁, hkey, houtcome⟩ := remembered_from h hfind
    obtain ⟨rfl, harguments⟩ := hmakes₁.eq_of_keyOf hmakes hkey.symm
    obtain ⟨r, _, hr, rfl⟩ := hmakes₁
    rw [← harguments]
    exact ⟨u₁, c₁, r, hto, hfrom, hr, houtcome⟩

/-- Fills a table with one string; its length is a sum. -/
def tableCode : Body where
  maxStack := 4
  maxLocals := 0
  code := Listing.ofInstrs
    [.push (.int 0), .push (.int 1), .math .int .add, .typed .newArray "java/lang/String", .stack .dup, .push (.int 0),
     .push (.text (.ofString "hello")), .plain Opcode.aastore, .field .putStatic ⟨"A", "T", "[Ljava/lang/String;"⟩,
     .leave none]

/-- Reads an entry of the table and hands it to an encoder. -/
def lookupCode : Body where
  maxStack := 2
  maxLocals := 1
  code := Listing.ofInstrs
    [.field .getStatic ⟨"A", "T", "[Ljava/lang/String;"⟩, .load .int 0, .plain 0x32,
     .invoke .static ⟨"java/util/Base64", "f", "(Ljava/lang/String;)Ljava/lang/String;"⟩ false, .leave (some .ref)]

/-- Asks for an entry that the table has, and for one that it has not. -/
def askingCode : Body where
  maxStack := 1
  maxLocals := 0
  code := Listing.ofInstrs
    [.push (.int 0), .invoke .static ⟨"A", "d", "(I)Ljava/lang/String;"⟩ false, .stack .pop,
     .push (.int 7), .invoke .static ⟨"A", "d", "(I)Ljava/lang/String;"⟩ false, .stack .pop, .leave none]

/-- A static method with code. -/
def staticMethod (name descriptor : String) (b : Body) : Method :=
  { (default : Method) with access := ⟨8⟩, name, descriptor, body := some b }

/-- A class with a routine and calls of it, by the code that fills the routine's table. -/
def askingClass (filling : Body) : ClassUnit :=
  { (default : ClassUnit) with
    name := "A"
    methods := [staticMethod "<clinit>" "()V" filling, staticMethod "d" "(I)Ljava/lang/String;" lookupCode,
      staticMethod "m" "()V" askingCode] }

theorem step_askingClass (filling : Body) (c : Context) :
    Step (askingClass filling, c) (askingClass filling.foldConstants.2, c) := by
  have hfold : MethodPass.constantFolding ∈ MethodPass.all := by simp [MethodPass.all, MethodPass.flowSimplification]
  have hstep : Step (askingClass filling, c)
      ({ askingClass filling with
          methods := [] ++ { staticMethod "<clinit>" "()V" filling with body := some filling.foldConstants.2 } ::
            (askingClass filling).methods.tail }, c) :=
    .overBody hfold rfl rfl rfl
  exact hstep

/-- What a run leaves of the class if the table can be read. -/
def askedOnce : ClassUnit × Context := (run (askingClass tableCode.foldConstants.2) {}).2

/-- If the table can be read from the start, a second run finds one call that is left, remembered as one that
gives no string, and gets the same from memory as without. -/
theorem rewrites_after_history_askedOnce :
    Relation.ReflTransGen Step (askingClass tableCode.foldConstants.2, {}) askedOnce ∧
      askedOnce.2.cache.size = 2 ∧ (callsMet askedOnce.1).length = 1 ∧
      rewrites askedOnce.1 askedOnce.2 = rewrites askedOnce.1 {} := by
  have hhistory : Relation.ReflTransGen Step (askingClass tableCode.foldConstants.2, {}) (askedOnce.1, askedOnce.2) :=
    .single (step_run _ _)
  have hright : ∀ site ∈ callsMet askedOnce.1, site.RightIn askedOnce.2.cache := by decide +kernel
  exact ⟨hhistory, by decide +kernel, by decide +kernel, (rewrites_after_history hhistory).1.mpr hright⟩

/-- If the length of the table is still a sum in the first run, the call gives no string then, and this is
remembered: after the sum is worked out it gives none either, though with nothing remembered it would. -/
theorem rewrites_ne_of_late_table :
    ∃ c, Relation.ReflTransGen Step (askingClass tableCode, {}) (askingClass tableCode.foldConstants.2, c) ∧
      rewrites (askingClass tableCode.foldConstants.2) c ≠ rewrites (askingClass tableCode.foldConstants.2) {} ∧
      (run (askingClass tableCode.foldConstants.2) c).1 = 0 ∧
      (run (askingClass tableCode.foldConstants.2) {}).1 = 1 := by
  have hsame : (run (askingClass tableCode) {}).2.1 = askingClass tableCode :=
    ((ClassUnit.Rewritten.strings _ _).honest.eq_of_modified_eq_false (by decide +kernel)).2
  have hfirst := step_run (askingClass tableCode) {}
  have hstate : (run (askingClass tableCode) {}).2 = (askingClass tableCode, (run (askingClass tableCode) {}).2.2) :=
    Prod.ext hsame rfl
  rw [hstate] at hfirst
  exact ⟨_, .tail (.single hfirst) (step_askingClass tableCode _), by decide +kernel, by decide +kernel,
    by decide +kernel⟩

end Strings

end Untangle
