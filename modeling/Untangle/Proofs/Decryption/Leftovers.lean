import Untangle.Proofs.ClassUnit.Removal
import Untangle.Proofs.Decryption.Memory

/-!
# Calls of routines that are gone

The decryption of strings takes out the routines that it has no more use for. To see which ones are still
called it looks at direct calls only, and leaves out the code of the routines that it used, though some of
those may stay. So a method that is gone may still be named in two ways, and in no other: by a call from a
routine that stayed, and by a handle of a call site. Neither is touched by the decryption, so both can be
read off the class before the run.
-/

namespace Untangle

open List

variable {k : Known} {u : ClassUnit} {s : Signature} {passed rest : List Node} {p : Progress} {used : List Signature}
  {referenced : Label → Bool}

namespace Operand

/-- What was passed is still there, or is one of the operands. -/
theorem mem_of_take {count : Nat} {is : List Instr} (h : take referenced count passed = some (is, rest)) (n : Node) :
    (n ∈ rest → n ∈ passed) ∧ (n ∈ passed → n ∈ rest ∨ n.instr ∈ is) := by
  induction count generalizing passed rest is with
  | zero =>
    cases h
    exact ⟨id, .inl⟩
  | succ count ih =>
    obtain ⟨o, _, _, ho, hearlier, rfl, rfl⟩ := take_succ h
    obtain ⟨hback, hforth⟩ := ih hearlier
    rw [passed_eq ho]
    simp only [mem_append, mem_cons, not_mem_nil, or_false]
    refine ⟨Or.imp_right fun hn => .inr (hback hn), ?_⟩
    rintro (hn | rfl | hn)
    · exact .inl (.inl hn)
    · exact .inr (.inr (instr_eq ho))
    · exact (hforth hn).imp .inr .inl

end Operand

namespace Strings

/-! ### Bodies -/

/-- Some code with strings in the place of calls: it has nothing else that is new, and all call sites. -/
structure Decrypted (before after : List Instr) : Prop where
  old : ∀ i ∈ after, i ∈ before ∨ ∃ text, i = .push (.text text)
  sites : ∀ site, .invokeDynamic site ∈ before → .invokeDynamic site ∈ after

theorem Decrypted.refl (is : List Instr) : Decrypted is is := ⟨fun _ => .inl, fun _ => id⟩

theorem not_site_of_argument? {i : Instr} {a : Argument} (h : k.argument? i = some a) (site : CallSite) :
    i ≠ .invokeDynamic site := by
  rintro rfl
  cases h

/-- One call replaced by its string. -/
theorem Decrypted.rule {method : String} {p' : Progress} {passed' : List Node} {n : Node} {before : List Instr}
    (h : rule k method referenced p passed n = (p', some passed'))
    (hd : Decrypted before ((passed.reverse ++ n :: rest).map Node.instr)) :
    Decrypted before ((passed'.reverse ++ rest).map Node.instr) := by
  obtain ⟨s, _, _, text, hcall, -, rfl⟩ := rule_eq_some h
  obtain ⟨m, _, r, _, -, hc, -, -, htake, harguments, -⟩ := callAt?_eq_some hcall
  have hn := Node.instr_of_content hc
  have hmem := Operand.mem_of_take htake
  constructor
  · intro i hi
    simp only [reverse_cons, append_assoc, singleton_append, map_append, map_cons,
      mem_append, mem_cons, mem_map, mem_reverse] at hi
    rcases hi with ⟨x, hx, rfl⟩ | rfl | ⟨x, hx, rfl⟩
    · exact hd.old _ (mem_map_of_mem (by simp [(hmem x).1 hx]))
    · exact .inr ⟨text, rfl⟩
    · exact hd.old _ (mem_map_of_mem (by simp [hx]))
  · intro site hsite
    obtain ⟨x, hx, hinstr⟩ := mem_map.mp (hd.sites site hsite)
    rw [← hinstr]
    apply mem_map_of_mem
    simp only [mem_append, mem_reverse, mem_cons] at hx ⊢
    rcases hx with hx | rfl | hx
    · rcases (hmem x).2 hx with hx | hx
      · exact .inl (.inr hx)
      · obtain ⟨a, ha⟩ := harguments _ hx
        exact absurd hinstr (not_site_of_argument? ha site)
    · rw [hn] at hinstr
      cases hinstr
    · exact .inr hx

theorem Decrypted.sweepWith (k : Known) (method : String) (p : Progress) (b : Body) :
    Decrypted b.code.instrs (b.sweepWith (Strings.rule k method) p).2.2.code.instrs := by
  have hnodes : (b.sweepWith (Strings.rule k method) p).2.2.code.instrs =
      (b.sweepWith (Strings.rule k method) p).2.2.nodes.map Node.instr := rfl
  rw [hnodes, b.nodes_sweepWith]
  refine sweepWith_keeps (P := fun _ ns => Decrypted b.code.instrs (ns.map Node.instr)) ?_ ?_ p 0 [] b.nodes
    (.refl _)
  · intro p passed n _ p' _ hr hd
    exact hd.rule hr
  · intro p passed n ns p' _ hd
    exact hd

/-! ### Methods -/

/-- A method after the run over its code: a routine is as it was. -/
structure Cleared (k : Known) (m m' : Method) : Prop where
  signature : m'.signature = m.signature
  routine : (k.routine? m.signature).isSome → m' = m
  code : Decrypted m.instrs m'.instrs

theorem Cleared.refl (k : Known) (m : Method) : Cleared k m m := ⟨rfl, fun _ => rfl, .refl _⟩

theorem decryptMethods_cleared (k : Known) (p : Progress) (ms : List Method) :
    List.Forall₂ (Cleared k) ms (decryptMethods k p 0 [] ms).2.2 := by
  have h : Elementwise (fun _ => Cleared k) (fun _ => Forall₂ (Cleared k)) := ⟨.nil, .cons⟩
  refine h.decryptMethods (.refl k) (fun {m b} p hb hroutine => ⟨rfl, fun hsome => ?_, ?_⟩) p ms
  · rw [hroutine] at hsome
    cases hsome
  · rw [Method.instrs, hb]
    exact .sweepWith k m.name p b

/-- Only routines are used. -/
theorem routine?_of_used (hp : ∀ s ∈ p.used, (k.routine? s).isSome) (changes : Nat) (done ms : List Method) :
    ∀ s ∈ (decryptMethods k p changes done ms).1.used, (k.routine? s).isSome := by
  refine keeps_decryptMethods (P := fun p => ∀ s ∈ p.used, (k.routine? s).isSome) ?_ hp changes done ms
  intro method referenced p passed n hp
  cases hcall : callAt? k referenced passed n with
  | none => rwa [rule_of_none hcall]
  | some =>
    obtain ⟨r, -, hr, -⟩ := makes_of_callAt? hcall
    rw [(rule_of_some method p hcall).2.1]
    split
    · intro s' hs'
      rcases mem_cons.mp hs' with rfl | hs'
      · simp [hr]
      · exact hp s' hs'
    · exact hp

/-! ### Classes -/

/-- The methods with this signature go. Nothing but the signature decides on it. -/
def Known.drops (k : Known) (called used : List Signature) (s : Signature) : Bool :=
  !called.contains s &&
    (used.contains s || ((k.providers.lookup s.name).isSome && GeneratedName.isLowercaseRun 10 s.name))

/-- What a run makes of the methods of a class: they are gone through, and some signatures are not kept.
None of those is called directly from a method other than the routines that were used. -/
theorem run_methods (u : ClassUnit) (c : Context) :
    ∃ ms used, ∃ keep : Signature → Bool, List.Forall₂ (Cleared (Known.of u)) u.methods ms ∧
      (∀ s ∈ used, ((Known.of u).routine? s).isSome) ∧
      (∀ s, keep s = false → s ∉ stillCalled { u with methods := ms } used) ∧
      (run u c).2.1.methods = ms.filter (keep ·.signature) := by
  have hms := decryptMethods_cleared (Known.of u) ⟨c, []⟩ u.methods
  have hused := routine?_of_used (k := Known.of u) (p := ⟨c, []⟩) (by simp) 0 [] u.methods
  unfold run
  dsimp only
  split
  · exact ⟨u.methods, [], fun _ => true, forall₂_same.mpr fun m _ => .refl _ m, by simp, by simp,
      (filter_true _).symm⟩
  · generalize decryptMethods (Known.of u) ⟨c, []⟩ 0 [] u.methods = d at hms hused
    split
    · exact ⟨d.2.2, [], fun _ => true, hms, by simp, by simp, (filter_true _).symm⟩
    · refine ⟨d.2.2, d.1.used,
        fun s => !(Known.of u).drops (stillCalled { u with methods := d.2.2 } d.1.used) d.1.used s,
        hms, hused, ?_, ClassUnit.methods_removeMethods _ _⟩
      intro s hs
      simp only [Known.drops, Bool.not_eq_false', Bool.and_eq_true, Bool.not_eq_true', contains_eq_mem,
        decide_eq_false_iff_not] at hs
      exact hs.1

/-- The search for calls finds those from all methods but the routines that were used. -/
theorem mem_stillCalled :
    s ∈ stillCalled u used ↔ ∃ m ∈ u.methods, m.signature ∉ used ∧ m.Names u.name .call .method s := by
  simp [stillCalled, Instruction.mem_callsOf, and_assoc, Method.Names]

/-- A call from a method that is no routine is seen by the search for calls. -/
theorem not_calls_of_not_stillCalled (hused : ∀ s ∈ used, (k.routine? s).isSome) (hs : s ∉ stillCalled u used)
    {m : Method} (hm : m ∈ u.methods) (hroutine : ¬ (k.routine? m.signature).isSome) :
    ¬ m.Names u.name .call .method s :=
  fun hnames => hs (mem_stillCalled.mpr ⟨m, hm, fun hmem => hroutine (hused _ hmem), hnames⟩)

/-- A method that a run lost is still named by what the run does not look at, and by nothing else. -/
theorem names_lost_iff {c : Context} (hs : u.Loses (run u c).2.1 s) :
    (∃ m ∈ (run u c).2.1.methods, m.Names u.name .call .method s ∨ m.Hands u.name s) ↔
      ∃ m ∈ u.methods, m.signature ∈ (run u c).2.1.members .method ∧
        (((Known.of u).routine? m.signature).isSome ∧ m.Names u.name .call .method s ∨ m.Hands u.name s) := by
  obtain ⟨ms, used, keep, hms, hused, hkeep, hmethods⟩ := run_methods u c
  have hsame : ∀ m ∈ (run u c).2.1.methods, m ∈ ms ∧ keep m.signature = true := by
    intro m hm
    rw [hmethods] at hm
    exact mem_filter.mp hm
  -- the lost signature is one that is not kept, so nothing that was looked at calls it
  have hgone : s ∉ stillCalled { u with methods := ms } used := by
    obtain ⟨m, hm, rfl⟩ := mem_map.mp hs.1
    obtain ⟨m', hm', hcleared⟩ := exists_of_forall₂_left hms hm
    refine hkeep _ (Bool.eq_false_of_not_eq_true fun hkept => hs.2 ?_)
    rw [ClassUnit.members, hmethods, ← hcleared.signature]
    rw [← hcleared.signature] at hkept
    exact mem_map_of_mem (mem_filter.mpr ⟨hm', hkept⟩)
  constructor
  · rintro ⟨m', hm', hnames⟩
    obtain ⟨m, hm, hcleared⟩ := exists_of_forall₂_right hms (hsame m' hm').1
    refine ⟨m, hm, hcleared.signature ▸ mem_map_of_mem hm', ?_⟩
    rcases hnames with hcalls | hhands
    · by_cases hroutine : ((Known.of u).routine? m.signature).isSome
      · exact .inl ⟨hroutine, hcleared.routine hroutine ▸ hcalls⟩
      · rw [← hcleared.signature] at hroutine
        exact absurd hcalls (not_calls_of_not_stillCalled hused hgone (hsame m' hm').1 hroutine)
    · refine .inr (hhands.mono fun site hsite => ?_)
      rcases hcleared.code.old _ hsite with hold | ⟨_, htext⟩
      · exact hold
      · cases htext
  · rintro ⟨m, hm, hstays, hnames⟩
    obtain ⟨m', hm', hcleared⟩ := exists_of_forall₂_left hms hm
    obtain ⟨m'', hm'', heq⟩ := mem_map.mp hstays
    refine ⟨m', ?_, ?_⟩
    · rw [hmethods]
      exact mem_filter.mpr ⟨hm', by rw [hcleared.signature, ← heq]; exact (hsame m'' hm'').2⟩
    · rcases hnames with ⟨hroutine, hcalls⟩ | hhands
      · rw [hcleared.routine hroutine]
        exact .inl hcalls
      · exact .inr (hhands.mono hcleared.code.sites)

/-- When the decryption of strings leaves nothing that calls a method it took out, for every class and
whatever is remembered. No code of the class that it leaves calls a lost method, or has a call site with a
handle for it, exactly if no method that stays had such a site before the run, and no routine that stays
calls a lost method. -/
theorem run_leaves_no_call_iff (u : ClassUnit) (c : Context) :
    (∀ s, u.Loses (run u c).2.1 s → ∀ m ∈ (run u c).2.1.methods,
        ¬ m.Names u.name .call .method s ∧ ¬ m.Hands u.name s) ↔
      ∀ s, u.Loses (run u c).2.1 s → ∀ m ∈ u.methods, m.signature ∈ (run u c).2.1.members .method →
        (((Known.of u).routine? m.signature).isSome → ¬ m.Names u.name .call .method s) ∧ ¬ m.Hands u.name s := by
  refine forall_congr' fun s => imp_congr_right fun hs => ?_
  have hiff := not_congr (names_lost_iff hs)
  simp only [not_exists, not_and, not_or] at hiff
  exact hiff

/-- Returns an entry of the table. -/
def entryRoutine : Signature := ⟨"e", "(I)Ljava/lang/String;"⟩

/-- A site that passes a handle for the routine on to a linker of another class. -/
def handingSite : CallSite :=
  ⟨1, "s", "()V", 0, ⟨6, ⟨"x/Y", "b", "()V"⟩, false⟩,
    [.handle ⟨6, ⟨"A", entryRoutine.name, entryRoutine.descriptor⟩, false⟩]⟩

/-- One routine returns an entry of the table, another one asks it to. Both are called with a literal, the
second one also with an argument that is not known. -/
def twoRoutines : ClassUnit :=
  { (default : ClassUnit) with
    name := "A"
    methods :=
      [.ofInstrs 8 "<clinit>" "()V"
        [.push (.int 1), .typed .newArray "java/lang/String", .stack .dup, .push (.int 0),
         .push (.text (.ofString "hello")), .plain Opcode.aastore,
         .field .putStatic ⟨"A", "T", "[Ljava/lang/String;"⟩, .leave none],
       .ofInstrs 8 "d" "(I)Ljava/lang/String;"
        [.field .getStatic ⟨"A", "T", "[Ljava/lang/String;"⟩, .stack .pop, .load .int 0, .callOf entryRoutine,
         .leave (some .ref)],
       .ofInstrs 8 "e" "(I)Ljava/lang/String;"
        [.field .getStatic ⟨"A", "T", "[Ljava/lang/String;"⟩, .load .int 0, .plain 0x32, .leave (some .ref)],
       .ofInstrs 8 "m" "(I)V"
        [.push (.int 0), .callOf ⟨"d", "(I)Ljava/lang/String;"⟩, .stack .pop,
         .load .int 0, .callOf ⟨"d", "(I)Ljava/lang/String;"⟩, .stack .pop,
         .push (.int 0), .callOf entryRoutine, .stack .pop, .invokeDynamic handingSite, .leave none]] }

/-- The first routine is taken out, though the second one stays and calls it, and a site has a handle for
it. -/
theorem twoRoutines_leaves_calls :
    twoRoutines.Loses (run twoRoutines {}).2.1 entryRoutine ∧
      (∃ m ∈ (run twoRoutines {}).2.1.methods, m.Names "A" .call .method entryRoutine) ∧
      ∃ m ∈ (run twoRoutines {}).2.1.methods, m.Hands "A" entryRoutine := by
  have hrun : twoRoutines.Loses (run twoRoutines {}).2.1 entryRoutine ∧
      (∃ m ∈ (run twoRoutines {}).2.1.methods, .callOf entryRoutine ∈ m.instrs) ∧
      ∃ m ∈ (run twoRoutines {}).2.1.methods, .invokeDynamic handingSite ∈ m.instrs := by
    decide +kernel
  obtain ⟨hlost, ⟨m, hm, hcall⟩, m', hm', hsite⟩ := hrun
  refine ⟨hlost, ⟨m, hm, _, hcall, .call _ _ rfl⟩, m', hm', .method, .inr ⟨_, hsite, ?_⟩⟩
  exact .argument (mem_singleton.mpr rfl) ⟨rfl, rfl, rfl⟩

end Strings

end Untangle
