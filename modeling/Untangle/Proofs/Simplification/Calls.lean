import Untangle.CallSites.Resolution
import Untangle.Decryption.Strings
import Untangle.Members.XorHelpers
import Untangle.Proofs.Members.ForwarderSearch
import Untangle.Proofs.Simplification.Sweep

/-!
# Replacing calls keeps bodies well-formed

Calls give way to what they return or to other calls, and their arguments go if they are literals. All
of these fall through. Only a call site that makes an object takes new instructions, which move its
arguments out of the way; they get the numbers after those in use.
-/

namespace Untangle

open List

variable {σ : Type} {owner : String} {passed rest : List Node} {is : List Instr} {k : Known} {n : Node}
  {base : UInt16} {count : Nat} {i : Instr} {method : String} {p p' : Progress} {passed' : List Node} {b : Body}
  {r : Replacement} {site : CallSite} {hints : Hints}

/-- A call can stand for anything that falls through. -/
theorem Instruction.StandsFor.invoke {kind : InvokeKind} {member : Member} {isInterface : Bool} {j : Instr}
    (h : j.fallsThrough = true) : (Instruction.invoke kind member isInterface : Instr).StandsFor j :=
  ⟨rfl, by simp [h], by simp [Instruction.targets], trivial, trivial⟩

/-! ### Exclusive or -/

theorem XorHelpers.rule_mild (owner : String) (helpers : List String) (referenced : Label → Bool) :
    (rule owner helpers referenced).Mild := by
  intro _ n _ h
  unfold rule at h
  split at h
  · rename_i m _ hc
    split at h
    · obtain ⟨⟨_, r, _, l⟩, hpair, h⟩ := Option.bind_eq_some_iff.mp h
      split at h
      · rename_i heq
        cases heq
        cases h
        have hn := Node.instr_of_content hc
        exact (Literals.thinned_pair hpair).reverse_cons_swap (by rw [Node.isReal, hn]; rfl)
          (.push (by rw [hn]; rfl))
      · cases h
    · cases h
  · cases h

/-! ### Forwarders -/

/-- What a forwarder does is a call. -/
def Forwarder.Calls (f : Forwarder) : Prop := ∃ kind member isInterface, f.call = .invoke kind member isInterface

namespace Forwarder

theorem Forwards.calls {m : Method} {f : Forwarder} (h : Forwards owner m f) : f.Calls := by
  cases h
  exact ⟨_, _, _, rfl⟩

theorem rule_mild (owner : String) {fs : List Forwarder} (hfs : ∀ f ∈ fs, f.Calls) : (rule owner fs).Mild := by
  intro _ n _ h
  unfold rule at h
  split at h
  · rename_i m _ hc
    split at h
    · obtain ⟨f, hf, rfl⟩ := Option.map_eq_some_iff.mp h
      obtain ⟨_, _, _, hcall⟩ := hfs f (mem_of_find?_eq_some hf)
      have hn := Node.instr_of_content hc
      rw [hcall]
      exact (Thinned.refl _).reverse_cons_swap (by rw [Node.isReal, hn]; rfl) (.invoke (by rw [hn]; rfl))
    · cases h
  · cases h

end Forwarder

/-! ### Rules that keep something -/

/-- What every step of a walk keeps holds after the walk. -/
theorem sweepWith_keeps {rule : σ → List Node → Node → σ × Option (List Node)} {P : σ → List Node → Prop}
    (hsome : ∀ s passed n rest s' passed', rule s passed n = (s', some passed') →
      P s (passed.reverse ++ n :: rest) → P s' (passed'.reverse ++ rest))
    (hnone : ∀ s passed n ns s', rule s passed n = (s', none) → P s ns → P s' ns) (s : σ) (changes : Nat)
    (passed ns : List Node) (h : P s (passed.reverse ++ ns)) :
    P (sweepWith rule s changes passed ns).1 (sweepWith rule s changes passed ns).2.2 := by
  induction ns generalizing s changes passed with
  | nil => simpa [sweepWith] using h
  | cons n rest ih =>
    rw [sweepWith]
    split
    · rename_i s' passed' hr
      exact ih s' _ passed' (hsome s passed n rest s' passed' hr h)
    · rename_i s' hr
      refine ih s' _ (n :: passed) ?_
      rw [reverse_cons, append_assoc]
      exact hnone s passed n _ s' hr h

theorem sweepWith_cons (rule : σ → List Node → Node → σ × Option (List Node)) (s : σ) (changes : Nat)
    (passed : List Node) (n : Node) (rest : List Node) :
    sweepWith rule s changes passed (n :: rest) =
      sweepWith rule (rule s passed n).1 (changes + if (rule s passed n).2.isSome then 1 else 0)
        ((rule s passed n).2.getD (n :: passed)) rest := by
  rw [sweepWith]
  split <;> simp_all

theorem Body.sweepWith_fst (b : Body) (rule : (Label → Bool) → σ → List Node → Node → σ × Option (List Node)) (s : σ) :
    (b.sweepWith rule s).1 = (Untangle.sweepWith (rule b.referencedSet.contains) s 0 [] b.nodes).1 := by
  unfold sweepWith
  dsimp only
  split <;> simp_all

theorem Body.sweepWith_changes (b : Body) (rule : (Label → Bool) → σ → List Node → Node → σ × Option (List Node))
    (s : σ) : (b.sweepWith rule s).2.1 = (Untangle.sweepWith (rule b.referencedSet.contains) s 0 [] b.nodes).2.1 := by
  unfold sweepWith
  dsimp only
  split <;> simp_all

theorem Body.sweepWith_limits (b : Body) (rule : (Label → Bool) → σ → List Node → Node → σ × Option (List Node))
    (s : σ) : (b.sweepWith rule s).2.2.maxLocals = b.maxLocals ∧ (b.sweepWith rule s).2.2.maxStack = b.maxStack := by
  unfold sweepWith
  dsimp only
  split <;> exact ⟨rfl, rfl⟩

theorem Body.sweepWith_snd_congr (b : Body)
    (rule : (Label → Bool) → σ → List Node → Node → σ × Option (List Node)) {s t : σ}
    (h : (Untangle.sweepWith (rule b.referencedSet.contains) s 0 [] b.nodes).2 =
      (Untangle.sweepWith (rule b.referencedSet.contains) t 0 [] b.nodes).2) :
    (b.sweepWith rule s).2 = (b.sweepWith rule t).2 := by
  unfold sweepWith
  dsimp only
  generalize Untangle.sweepWith (rule b.referencedSet.contains) s 0 [] b.nodes = w at h
  generalize Untangle.sweepWith (rule b.referencedSet.contains) t 0 [] b.nodes = w' at h
  obtain ⟨_, changes, _⟩ := w
  obtain ⟨_, _, _⟩ := w'
  cases h
  cases changes <;> rfl

/-- A walk that changed nothing leaves the nodes as they were. -/
theorem sweepWith_unchanged (rule : σ → List Node → Node → σ × Option (List Node)) (s : σ) (changes : Nat)
    (passed ns : List Node) :
    changes ≤ (sweepWith rule s changes passed ns).2.1 ∧
      ((sweepWith rule s changes passed ns).2.1 = changes →
        (sweepWith rule s changes passed ns).2.2 = passed.reverse ++ ns) := by
  induction ns generalizing s changes passed with
  | nil => exact ⟨le_refl _, fun _ => (append_nil _).symm⟩
  | cons n _ ih =>
    rw [sweepWith_cons]
    cases (rule s passed n).2 with
    | none => simpa using ih (rule s passed n).1 changes (n :: passed)
    | some passed' =>
      obtain ⟨hle, -⟩ := ih (rule s passed n).1 (changes + 1) passed'
      exact ⟨Nat.le_of_succ_le hle, fun hk => absurd hk (ne_of_gt hle)⟩

theorem Body.nodes_sweepWith (b : Body) (rule : (Label → Bool) → σ → List Node → Node → σ × Option (List Node))
    (s : σ) :
    (b.sweepWith rule s).2.2.nodes = (Untangle.sweepWith (rule b.referencedSet.contains) s 0 [] b.nodes).2.2 := by
  have hsame := (sweepWith_unchanged (rule b.referencedSet.contains) s 0 [] b.nodes).2
  unfold sweepWith
  dsimp only
  split
  · next heq =>
    rw [heq] at hsame ⊢
    exact (hsame rfl).symm
  · next heq =>
    rw [heq]
    refine Listing.nodes_withNodes fun hnil => ?_
    have hnil : b.nodes = [] := hnil
    rw [hnil] at heq
    cases heq
    rfl

/-! ### Strings -/

namespace Operand

theorem take_succ
    (h : take referenced (count + 1) passed = some (is, rest)) : ∃ o earlier before, find referenced passed = some o ∧
      take referenced count o.before = some (earlier, before) ∧ is = earlier ++ [o.instr] ∧
      rest = o.between ++ before := by
  simp only [take, Option.bind_eq_bind, Option.bind_eq_some_iff, Prod.exists] at h
  obtain ⟨o, ho, earlier, before, hearlier, rfl, rfl⟩ := h
  exact ⟨o, earlier, before, ho, hearlier, rfl, rfl⟩

/-- Taking operands that fall through out of what was passed. -/
theorem take_thinned (h : take referenced count passed = some (is, rest)) (hf : ∀ i ∈ is, i.fallsThrough = true) :
    Thinned NoneNew passed.reverse rest.reverse := by
  induction count generalizing passed rest is with
  | zero =>
    cases h
    exact .refl _
  | succ count ih =>
    obtain ⟨o, _, before, ho, hearlier, rfl, rfl⟩ := take_succ h
    have hbefore := ih hearlier fun i hi => hf i (by simp [hi])
    have hdrop : Thinned NoneNew [o.node] [] :=
      .dropped (by rw [instr_eq ho]; exact Instruction.label?_of_isReal (isReal_instr ho))
        (by rw [instr_eq ho]; exact hf _ (by simp))
    rw [passed_eq ho, reverse_append, reverse_append, reverse_cons, ← append_nil before.reverse]
    exact (hbefore.append hdrop).append (.refl _)

theorem length_of_take (h : take referenced count passed = some (is, rest)) : is.length = count := by
  induction count generalizing passed rest is with
  | zero =>
    cases h
    rfl
  | succ count ih =>
    obtain ⟨o, _, _, -, hearlier, rfl, rfl⟩ := take_succ h
    rw [length_append, ih hearlier]
    rfl

end Operand

namespace Strings

variable {referenced : Label → Bool}

/-- What pushes an argument falls through. -/
theorem fallsThrough_of_argument? {a : Argument} (h : k.argument? i = some a) : i.fallsThrough = true := by
  unfold Known.argument? at h
  split at h
  · rfl
  · rfl
  · rfl
  · rfl
  · rfl
  · cases h

/-- Every argument is pushed by an instruction. -/
theorem argument?_of_arguments? {params : List FieldType} {as : List Argument} (h : k.arguments? params is = some as)
    (hlen : is.length = params.length) : ∀ i ∈ is, ∃ a, k.argument? i = some a := by
  unfold Known.arguments? at h
  induction is generalizing params as with
  | nil => simp
  | cons i is ih =>
    cases params with
    | nil => cases hlen
    | cons _ params =>
      simp only [zip_cons_cons, mapM_cons, Option.bind_eq_bind, Option.bind_eq_some_iff] at h
      obtain ⟨a, ⟨a', ha, -⟩, _, has, -⟩ := h
      intro j hj
      rcases mem_cons.mp hj with rfl | hj
      · exact ⟨a', ha⟩
      · exact ih has (by simpa using hlen) j hj

/-- A call that can be made is a call to a routine, right after instructions that push its arguments. -/
theorem callAt?_eq_some {s : Signature} {call : Call} (h : callAt? k referenced passed n = some (s, call, rest)) :
    ∃ m isInterface r is as, n.content = some (.invoke .static m isInterface) ∧ m.signature = s ∧
      k.routine? s = some r ∧ Operand.take referenced r.params.length passed = some (is, rest) ∧
      (∀ i ∈ is, ∃ a, k.argument? i = some a) ∧ call = k.call s r as := by
  unfold callAt? at h
  split at h
  · rename_i m isInterface hc
    split at h
    · simp only [Option.bind_eq_bind, Option.bind_eq_some_iff, Prod.exists] at h
      obtain ⟨r, hr, is, _, htake, as, has, rfl, rfl, rfl⟩ := h
      exact ⟨m, isInterface, r, is, as, hc, rfl, hr, htake,
        argument?_of_arguments? has (Operand.length_of_take htake), rfl⟩
    · cases h
  · cases h

/-- The string that a call returns takes the place of the call and its arguments. -/
theorem rule_eq_some (h : rule k method referenced p passed n = (p', some passed')) :
    ∃ s call rest text, callAt? k referenced passed n = some (s, call, rest) ∧ p'.used = s :: p.used ∧
      passed' = { n with content := some (.push (.text text)) } :: rest := by
  unfold rule at h
  split at h
  · cases h
  · rename_i s call rest hcall
    simp only at h
    split at h
    · cases h
    · cases h
      exact ⟨s, call, rest, _, hcall, rfl, rfl⟩

/-- The call goes with its arguments, and the string takes its place. -/
theorem rule_thinned (h : rule k method referenced p passed n = (p', some passed')) :
    Thinned NoneNew (n :: passed).reverse passed'.reverse := by
  obtain ⟨s, _, _, _, hcall, -, rfl⟩ := rule_eq_some h
  obtain ⟨m, _, r, is, -, hc, -, -, htake, harguments, -⟩ := callAt?_eq_some hcall
  have hn := Node.instr_of_content hc
  have hfalls : ∀ i ∈ is, i.fallsThrough = true := by
    intro i hi
    obtain ⟨a, ha⟩ := harguments i hi
    exact fallsThrough_of_argument? ha
  exact (Operand.take_thinned htake hfalls).reverse_cons_swap (by rw [Node.isReal, hn]; rfl) (.push (by rw [hn]; rfl))

end Strings

/-- Going through a body with a rule that takes out calls and arguments keeps it well-formed. -/
theorem Body.WellFormed.sweepWith (h : b.WellFormed)
    {rule : (Label → Bool) → σ → List Node → Node → σ × Option (List Node)}
    (hrule : ∀ referenced s passed n s' passed', rule referenced s passed n = (s', some passed') →
      Thinned NoneNew (n :: passed).reverse passed'.reverse)
    (s : σ) : (b.sweepWith rule s).2.2.WellFormed := by
  have hsome : ∀ s passed n rest s' passed', rule b.referencedSet.contains s passed n = (s', some passed') →
      Trims b.nodes (passed.reverse ++ n :: rest) → Trims b.nodes (passed'.reverse ++ rest) := by
    intro s passed n rest s' passed' hr hP
    have hthin := (hrule _ s passed n s' passed' hr).append (.refl rest)
    rw [reverse_cons, append_assoc] at hthin
    exact hP.trans hthin.trims
  have hkeeps := sweepWith_keeps hsome (fun _ _ _ _ _ _ hP => hP) s 0 [] b.nodes (.refl _)
  unfold Body.sweepWith
  simp only
  split
  · exact h
  · rename_i s' _ nodes _ heq
    rw [heq] at hkeeps
    exact h.withNodes hkeeps

/-! ### Call sites -/

namespace CallSites

/-- Executes something, falls through and goes nowhere else, and names no member of a class. -/
structure Plain (i : Instr) : Prop where
  real : i.isReal = true
  falls : i.fallsThrough = true
  targets : i.targets = []
  table : i.TableFits
  opcode : i.HasOpcode
  unnamed : ∀ owner, i.fieldsOf owner = [] ∧ i.methodsOf owner = []

theorem constructorCall_eq_some {d : MethodDescriptor} (h : constructorCall owner d base = some r) :
    (∃ kind member isInterface, r.call = .invoke kind member isInterface) ∧ ∀ i ∈ r.setup, Plain i := by
  unfold constructorCall at h
  split at h
  · cases h
    refine ⟨⟨_, _, _, rfl⟩, fun i hi => ?_⟩
    simp only [mem_append, mem_map, mem_cons, not_mem_nil, or_false] at hi
    rcases hi with (⟨-, -, rfl⟩ | rfl | rfl) | ⟨-, -, rfl⟩
    · exact ⟨rfl, rfl, rfl, trivial, trivial, fun _ => ⟨rfl, rfl⟩⟩
    · exact ⟨rfl, rfl, rfl, trivial, trivial, fun _ => ⟨rfl, rfl⟩⟩
    · exact ⟨rfl, rfl, rfl, trivial, trivial, fun _ => ⟨rfl, rfl⟩⟩
    · exact ⟨rfl, rfl, rfl, trivial, trivial, fun _ => ⟨rfl, rfl⟩⟩
  · cases h

/-- The target of a site that is resolved. The site becomes a single call, unless it stands for a constructor. -/
theorem resolve_cases (h : resolve site hints base = some r) :
    ∃ lookup owner name d, (lookup = .constructor ↔ (hints.withArguments site).lookup = some .constructor) ∧
      (hints.withArguments site).target? lookup site = some (owner, name) ∧
      MethodDescriptor.parse site.descriptor = .ok d ∧
      ((lookup ≠ .constructor ∧ ∃ kind descriptor, r = { call := .invoke kind ⟨owner, name, descriptor⟩ false }) ∨
        (lookup = .constructor ∧ constructorCall owner d base = some r)) := by
  unfold resolve at h
  simp only [Option.bind_eq_bind, Option.bind_eq_some_iff, Prod.exists] at h
  obtain ⟨owner, name, htarget, d, hd, h⟩ := h
  have hparse : MethodDescriptor.parse site.descriptor = .ok d := by
    cases hp : MethodDescriptor.parse site.descriptor <;> simp_all [Except.toOption]
  refine ⟨_, owner, name, d, ?_, htarget, hparse, ?_⟩
  · cases (hints.withArguments site).lookup with
    | none => split <;> simp
    | some lookup => simp
  · split at h
    · next heq =>
      cases h
      exact .inl ⟨by simp [heq], _, _, rfl⟩
    · next heq =>
      obtain ⟨d', -, h⟩ := Option.bind_eq_some_iff.mp h
      cases h
      exact .inl ⟨by simp [heq], _, _, rfl⟩
    · next heq =>
      obtain ⟨d', -, h⟩ := Option.bind_eq_some_iff.mp h
      cases h
      exact .inl ⟨by simp [heq], _, _, rfl⟩
    · next heq => exact .inr ⟨heq, h⟩

/-- The call that a site becomes, and what is done before it. -/
theorem resolve_eq_some (h : resolve site hints base = some r) :
    (∃ kind member isInterface, r.call = .invoke kind member isInterface) ∧ ∀ i ∈ r.setup, Plain i := by
  obtain ⟨_, _, _, _, -, -, -, ⟨-, kind, _, rfl⟩ | ⟨-, hcall⟩⟩ := resolve_cases h
  · exact ⟨⟨_, _, _, rfl⟩, by simp⟩
  · exact constructorCall_eq_some hcall

theorem eq_of_linkedBy? {linker : Signature} (h : linkedBy? owner i = some (site, linker)) :
    i = .invokeDynamic site := by
  unfold linkedBy? at h
  split at h
  · split at h
    · cases h
      rfl
    · cases h
  · cases h

/-- The nodes are numbered, each in its own way, below `next`. -/
def Numbered (next : Nat) (ns : List Node) : Prop := (ns.map Node.id).Nodup ∧ ∀ n ∈ ns, n.id < next

/-- Nodes with the next numbers can be put in anywhere. -/
theorem Numbered.insert {next : Nat} {pre post : List Node} (h : Numbered next (pre ++ post)) (is : List Instr) :
    Numbered (next + is.length)
      (pre ++ ((is.zipIdx next).map fun (i, id) => (⟨id, some i⟩ : Node)) ++ post) := by
  have hnew : ((is.zipIdx next).map fun (i, id) => (⟨id, some i⟩ : Node)).map Node.id = range' next is.length := by
    rw [map_map, ← zipIdx_map_snd next is]
    rfl
  constructor
  · have hperm : ((pre ++ ((is.zipIdx next).map fun (i, id) => (⟨id, some i⟩ : Node)) ++ post).map Node.id).Perm
        (range' next is.length ++ (pre ++ post).map Node.id) := by
      rw [map_append, map_append, hnew, map_append, ← append_assoc]
      exact (perm_append_comm).append_right _
    rw [hperm.nodup_iff, nodup_append]
    refine ⟨nodup_range', h.1, fun i hi j hj he => ?_⟩
    obtain ⟨n, hn, rfl⟩ := mem_map.mp hj
    have hlt := h.2 n hn
    have hge := (mem_range'_1.mp hi).1
    omega
  · intro n hn
    rw [append_assoc, mem_append, mem_append] at hn
    have hold : n ∈ pre ++ post → n.id < next + is.length := fun hm => Nat.lt_add_right _ (h.2 n hm)
    rcases hn with hn | hn | hn
    · exact hold (mem_append_left _ hn)
    · have hid : n.id ∈ range' next is.length := hnew ▸ mem_map_of_mem hn
      exact (mem_range'_1.mp hid).2
    · exact hold (mem_append_right _ hn)

/-- A site gives way to a call, with nodes before it that take the next numbers. -/
theorem rule_eq_some {known : List (Signature × Hints)} (h : rule owner known base p passed n = (p', some passed'))
    (hnumbered : Numbered p.nextId (passed.reverse ++ n :: rest)) :
    Simplifies (passed.reverse ++ n :: rest) (passed'.reverse ++ rest) ∧
      Numbered p'.nextId (passed'.reverse ++ rest) ∧ p.nextId ≤ p'.nextId := by
  unfold rule at h
  simp only at h
  split at h
  · cases h
  · rename_i r hfound
    simp only [Option.bind_eq_bind, Option.bind_eq_some_iff, Prod.exists, Option.pure_def, Option.some.injEq,
      Prod.mk.injEq] at hfound
    obtain ⟨i, hc, _, _, hlinked, hints, -, r', hresolve, rfl, rfl⟩ := hfound
    obtain rfl := eq_of_linkedBy? hlinked
    cases h
    have hn := Node.instr_of_content hc
    obtain ⟨⟨_, _, _, hcall⟩, hsetup⟩ := resolve_eq_some hresolve
    simp only [reverse_cons, reverse_append, reverse_reverse, append_assoc]
    refine ⟨?_, ?_, Nat.le_add_right ..⟩
    · have hthin : Thinned (fun _ => True) (n :: rest)
          ((r'.setup.zipIdx p.nextId).map (fun (i, id) => (⟨id, some i⟩ : Node)) ++
            { n with content := some r'.call } :: rest) := by
        refine .swap (by rw [Node.isReal, hn]; rfl) ?_ (fun m hm => ⟨trivial, ?_⟩) (.refl rest)
        · rw [hcall, hn]
          exact .invoke rfl
        · obtain ⟨⟨i, id⟩, hi, rfl⟩ := mem_map.mp hm
          have hplain := hsetup i (fst_mem_of_mem_zipIdx hi)
          exact ⟨rfl, hplain.real, hplain.falls, hplain.targets, hplain.table, hplain.opcode⟩
      exact ((Thinned.refl passed.reverse).append hthin).simplifies
    · have hsame : Numbered p.nextId (passed.reverse ++ { n with content := some r'.call } :: rest) := by
        refine ⟨by simpa using hnumbered.1, fun m hm => ?_⟩
        rcases mem_append.mp hm with hm | hm
        · exact hnumbered.2 m (by simp [mem_reverse.mp hm])
        · rcases mem_cons.mp hm with rfl | hm
          · exact hnumbered.2 n (by simp)
          · exact hnumbered.2 m (by simp [hm])
      rw [← append_assoc]
      exact hsame.insert r'.setup

end CallSites

/-- Resolving the call sites of a body keeps it well-formed. -/
theorem Body.WellFormed.resolveBody (h : b.WellFormed) (owner : String) (known : List (Signature × CallSites.Hints)) :
    (CallSites.resolveBody owner known b).2.2.WellFormed := by
  let P (p : CallSites.Progress) (ns : List Node) : Prop :=
    Simplifies b.nodes ns ∧ CallSites.Numbered p.nextId ns ∧ b.code.nextId ≤ p.nextId
  have hsome : ∀ p passed n rest p' passed', CallSites.rule owner known b.maxLocals p passed n = (p', some passed') →
      P p (passed.reverse ++ n :: rest) → P p' (passed'.reverse ++ rest) := by
    intro p passed n rest p' passed' hr hP
    obtain ⟨hs, hn, hle⟩ := CallSites.rule_eq_some hr hP.2.1
    exact ⟨hP.1.trans hs, hn, hP.2.2.trans hle⟩
  have hnone : ∀ p passed n ns p', CallSites.rule owner known b.maxLocals p passed n = (p', none) →
      P p ns → P p' ns := by
    intro p passed n ns p' hr hP
    unfold CallSites.rule at hr
    simp only at hr
    split at hr
    · cases hr
      exact hP
    · cases hr
  have hkeeps := sweepWith_keeps hsome hnone ⟨b.code.nextId, 0, 0, []⟩ 0 [] b.nodes
    ⟨.refl _, ⟨h.ids_nodup, h.sound.ids_lt⟩, le_refl _⟩
  unfold CallSites.resolveBody Body.sweepWith
  simp only
  split
  · rename_i p nodes hsweep
    rw [hsweep] at hkeeps
    exact h.simplified (.refl _) h.strands h.ids_nodup
      (fun n hn => lt_of_lt_of_le (h.sound.ids_lt n hn) hkeeps.2.2) rfl rfl rfl
  · rename_i p _ nodes _ hsweep
    rw [hsweep] at hkeeps
    obtain ⟨hs, hnumbered, -⟩ := hkeeps
    refine h.simplified hs (Listing.withNodes_strands h.intact fun hnil => ?_) hnumbered.1 hnumbered.2 rfl rfl rfl
    have hnodes : b.nodes = [] := hnil
    rw [hnodes] at hsweep
    cases hsweep
    rfl

end Untangle
