import Untangle.Proofs.ClassUnit.Removal

/-!
# References to linking routines that are gone

Resolving call sites turns a site into a direct call, and takes a routine out once a site that it links
was resolved and none is left. Nothing else is asked of the routine: that it is called directly, that the
call of a resolved site goes to it, or that another site has a handle for it among its arguments does not
keep it. So these three are what may still name a routine that is gone.
-/

namespace Untangle

open List

variable {i : Instr} {b : Body}

namespace CallSites

/-! ### Bodies -/

/-- The routine that links the site of an instruction, and what takes the site's place. -/
def settle? (owner : String) (known : List (Signature × Hints)) (base : UInt16) (i : Instr) :
    Option (Signature × Replacement) :=
  (linkedBy? owner i).bind fun l => (known.reverse.lookup l.2).bind fun hints =>
    (resolve l.1 hints base).map fun r => (l.2, r)

/-- The call that an instruction becomes if it is a site that is resolved, else the instruction itself. -/
def settled (owner : String) (known : List (Signature × Hints)) (base : UInt16) (i : Instr) : Instr :=
  ((settle? owner known base i).map (·.2.call)).getD i

/-- What is put before it. -/
def setup (owner : String) (known : List (Signature × Hints)) (base : UInt16) (i : Instr) : List Instr :=
  ((settle? owner known base i).map (·.2.setup)).getD []

section Bodies

variable {owner : String} {known : List (Signature × Hints)} {base : UInt16}

theorem settle?_eq_some {linker : Signature} {r : Replacement} :
    settle? owner known base i = some (linker, r) ↔ ∃ site hints, linkedBy? owner i = some (site, linker) ∧
      known.reverse.lookup linker = some hints ∧ resolve site hints base = some r := by
  simp only [settle?, Option.bind_eq_some_iff, Option.map_eq_some_iff, Prod.exists, Prod.mk.injEq]
  constructor
  · rintro ⟨site, linker, hlinked, hints, hhints, r, hr, rfl, rfl⟩
    exact ⟨site, hints, hlinked, hhints, hr⟩
  · rintro ⟨site, hints, hlinked, hhints, hr⟩
    exact ⟨site, linker, hlinked, hints, hhints, r, hr, rfl, rfl⟩

/-- The nodes that are put before the call of a site. -/
def setupNodes (p : Progress) (r : Replacement) : List Node :=
  (r.setup.zipIdx p.nextId).map fun x => ⟨x.2, some x.1⟩

theorem map_instr_setupNodes (p : Progress) (r : Replacement) : (setupNodes p r).map Node.instr = r.setup := by
  rw [setupNodes, map_map]
  exact zipIdx_map_fst p.nextId r.setup

/-- What is carried along after a site was resolved. -/
def Progress.withSite (p : Progress) (linker : Signature) (r : Replacement) : Progress :=
  { nextId := p.nextId + r.setup.length
    spill := max p.spill r.spill
    extraStack := max p.extraStack r.extraStack
    resolved := linker :: p.resolved }

/-- A site is replaced just if it is settled. -/
theorem rule_cases (p : Progress) (passed : List Node) (n : Node) :
    (settle? owner known base n.instr = none ∧ rule owner known base p passed n = (p, none)) ∨
      ∃ linker r, settle? owner known base n.instr = some (linker, r) ∧
        rule owner known base p passed n =
          (p.withSite linker r, some ({ n with content := some r.call } :: ((setupNodes p r).reverse ++ passed))) := by
  unfold rule
  dsimp only
  split
  · rename_i hfound
    refine .inl ⟨Option.eq_none_iff_forall_ne_some.mpr fun f hf => ?_, rfl⟩
    obtain ⟨site, hints, hlinked, hhints, hr⟩ := settle?_eq_some.mp hf
    cases hc : n.content with
    | none =>
      rw [Node.instr, hc] at hlinked
      cases hlinked
    | some i =>
      rw [Node.instr_of_content hc] at hlinked
      simp [hc, hlinked, hhints, hr] at hfound
  · rename_i linker r hfound
    simp only [Option.bind_eq_bind, Option.bind_eq_some_iff, Prod.exists] at hfound
    obtain ⟨i, hc, site, _, hlinked, hints, hhints, _, hr, rfl, rfl⟩ := hfound
    rw [← Node.instr_of_content hc] at hlinked
    exact .inr ⟨_, _, settle?_eq_some.mpr ⟨site, hints, hlinked, hhints, hr⟩, rfl⟩

/-- What a walk makes of the instructions, and the routines of which it resolved a site. -/
theorem sweepWith_settled (p : Progress) (changes : Nat) (passed ns : List Node) :
    ((sweepWith (rule owner known base) p changes passed ns).2.2.map Node.instr =
        passed.reverse.map Node.instr ++ (ns.map Node.instr).flatMap fun i =>
          setup owner known base i ++ [settled owner known base i]) ∧
      ∀ s, s ∈ (sweepWith (rule owner known base) p changes passed ns).1.resolved ↔
        s ∈ p.resolved ∨ ∃ i ∈ ns.map Node.instr, ∃ r, settle? owner known base i = some (s, r) := by
  induction ns generalizing p changes passed with
  | nil => simp [sweepWith]
  | cons n _ ih =>
    rw [sweepWith_cons]
    rcases @rule_cases owner known base p passed n with ⟨hnone, hrule⟩ | ⟨linker, r, hsome, hrule⟩
    · obtain ⟨hinstrs, hmem⟩ := ih p (changes + 0) (n :: passed)
      rw [hrule]
      refine ⟨hinstrs.trans (by simp [setup, settled, hnone]), fun s => (hmem s).trans ?_⟩
      simp [hnone]
    · obtain ⟨hinstrs, hmem⟩ := ih (p.withSite linker r) (changes + 1)
        ({ n with content := some r.call } :: ((setupNodes p r).reverse ++ passed))
      rw [hrule]
      refine ⟨hinstrs.trans ?_, fun s => (hmem s).trans ?_⟩
      · simp [setup, settled, hsome, map_instr_setupNodes]
      · simp only [Progress.withSite, mem_cons, map_cons, exists_eq_or_imp, hsome, Option.some.injEq,
          Prod.mk.injEq, exists_and_left]
        tauto

theorem sweepWith_of_none {ns : List Node} (h : ∀ n ∈ ns, settle? owner known base n.instr = none) (p : Progress)
    (changes : Nat) (passed : List Node) :
    sweepWith (rule owner known base) p changes passed ns = (p, changes, passed.reverse ++ ns) := by
  induction ns generalizing changes passed with
  | nil => simp [sweepWith]
  | cons n _ ih =>
    rw [forall_mem_cons] at h
    rw [sweepWith_cons]
    rcases @rule_cases owner known base p passed n with ⟨-, hrule⟩ | ⟨_, r, hsome, -⟩
    · rw [hrule]
      exact (ih h.2 changes (n :: passed)).trans (by simp)
    · rw [h.1] at hsome
      cases hsome

/-- A body without a site that can be resolved stays as it is. -/
theorem resolveBody_of_none (h : ∀ i ∈ b.code.instrs, settle? owner known b.maxLocals i = none) :
    (resolveBody owner known b).2.2 = b := by
  have hnodes : ∀ n ∈ b.nodes, settle? owner known b.maxLocals n.instr = none := fun n hn =>
    h n.instr (mem_map_of_mem hn)
  unfold resolveBody Body.sweepWith
  simp [sweepWith_of_none hnodes, saturatingAdd_zero]

theorem resolveBody_settled (b : Body) :
    ((resolveBody owner known b).2.2.code.instrs = b.code.instrs.flatMap fun i =>
        setup owner known b.maxLocals i ++ [settled owner known b.maxLocals i]) ∧
      ∀ s, s ∈ (resolveBody owner known b).1 ↔
        ∃ i ∈ b.code.instrs, ∃ r, settle? owner known b.maxLocals i = some (s, r) := by
  obtain ⟨hinstrs, hmem⟩ := @sweepWith_settled owner known b.maxLocals ⟨b.code.nextId, 0, 0, []⟩ 0 [] b.nodes
  have hnodes := b.nodes_sweepWith (fun _ => rule owner known b.maxLocals) ⟨b.code.nextId, 0, 0, []⟩
  have hprogress := b.sweepWith_fst (fun _ => rule owner known b.maxLocals) ⟨b.code.nextId, 0, 0, []⟩
  unfold resolveBody
  dsimp only
  constructor
  · rw [← hnodes] at hinstrs
    exact hinstrs
  · intro s
    rw [hprogress, hmem]
    simp [Listing.instrs, Body.nodes]

/-- What is put before a call names nothing. -/
theorem not_names_setup {j : Instr} (hj : j ∈ setup owner known base i) {unit : String} {way : Naming}
    {kind : MemberKind} : ¬ j.Names unit way kind s := by
  intro hnames
  unfold setup at hj
  cases hsettle : settle? owner known base i with
  | none => simp [hsettle] at hj
  | some =>
    rw [hsettle] at hj
    obtain ⟨_, hints, -, -, hr⟩ := settle?_eq_some.mp hsettle
    obtain ⟨hfields, hmethods⟩ := ((resolve_eq_some hr).2 j hj).unnamed unit
    cases kind with
    | field =>
      have hs := Instruction.mem_fieldsOf.mpr ⟨way, hnames⟩
      rw [hfields] at hs
      cases hs
    | method =>
      have hs := Instruction.mem_methodsOf.mpr ⟨way, hnames⟩
      rw [hmethods] at hs
      cases hs

end Bodies

/-! ### Methods -/

/-- What the instructions of a method become, without what is put before calls. -/
def settledInstrs (owner : String) (known : List (Signature × Hints)) (m : Method) : List Instr :=
  m.body.elim [] fun b => b.code.instrs.map (settled owner known b.maxLocals)

/-- The routines of which a site in the method is resolved. -/
def resolvedIn (owner : String) (known : List (Signature × Hints)) (m : Method) : List Signature :=
  m.body.elim [] fun b => b.code.instrs.filterMap fun i => (settle? owner known b.maxLocals i).map Prod.fst

/-- A method after the run over its code. -/
structure Settled (owner : String) (known : List (Signature × Hints)) (m m' : Method) : Prop where
  signature : m'.signature = m.signature
  body : m'.body = m.body.map fun b => (resolveBody owner known b).2.2
  names : ∀ unit way kind s, m'.Names unit way kind s ↔ ∃ i ∈ settledInstrs owner known m, i.Names unit way kind s

section Methods

variable {owner : String} {known : List (Signature × Hints)}

theorem Settled.resolveBody {m : Method} (hb : m.body = some b) :
    Settled owner known m { m with body := some (CallSites.resolveBody owner known b).2.2 } := by
  refine ⟨rfl, by rw [hb]; rfl, fun unit way kind s => ?_⟩
  simp only [Method.Names, Method.instrs, Option.elim_some, (resolveBody_settled b).1, settledInstrs, hb,
    mem_flatMap, mem_append, mem_singleton, mem_map]
  constructor
  · rintro ⟨j, ⟨i, hi, hj | rfl⟩, hnames⟩
    · exact absurd hnames (not_names_setup hj)
    · exact ⟨_, ⟨i, hi, rfl⟩, hnames⟩
  · rintro ⟨j, ⟨i, hi, rfl⟩, hnames⟩
    exact ⟨_, ⟨i, hi, .inr rfl⟩, hnames⟩

theorem resolveMethods_settled (resolved : List Signature) (changes : Nat) (done ms : List Method) :
    ∃ ms', (resolveMethods owner known resolved changes done ms).2.2 = done.reverse ++ ms' ∧
      List.Forall₂ (Settled owner known) ms ms' ∧
      ∀ s, s ∈ (resolveMethods owner known resolved changes done ms).1 ↔
        s ∈ resolved ∨ ∃ m ∈ ms, s ∈ resolvedIn owner known m := by
  induction ms generalizing resolved changes done with
  | nil => exact ⟨[], by simp [resolveMethods], .nil, by simp [resolveMethods]⟩
  | cons m _ ih =>
    unfold resolveMethods
    split
    · rename_i hb
      obtain ⟨ms', heq, hms, hmem⟩ := ih resolved changes (m :: done)
      have hsame : Settled owner known m m :=
        ⟨rfl, by rw [hb]; rfl, by simp [Method.Names, Method.instrs, settledInstrs, hb]⟩
      refine ⟨m :: ms', by simp [heq], .cons hsame hms, fun s => (hmem s).trans ?_⟩
      simp [resolvedIn, hb]
    · rename_i b hb
      obtain ⟨ms', heq, hms, hmem⟩ := ih ((resolveBody owner known b).1 ++ resolved)
        (changes + (resolveBody owner known b).2.1)
        ({ m with body := some (resolveBody owner known b).2.2 } :: done)
      refine ⟨_, by simp [heq], .cons (.resolveBody hb) hms, fun s => (hmem s).trans ?_⟩
      have hhere : s ∈ resolvedIn owner known m ↔ s ∈ (resolveBody owner known b).1 := by
        rw [(resolveBody_settled b).2, resolvedIn, hb]
        simp
      rw [mem_append, exists_mem_cons_iff]
      tauto

theorem settle?_nil (base : UInt16) (i : Instr) : settle? owner [] base i = none := by
  unfold settle?
  cases linkedBy? owner i <;> rfl

theorem Settled.nil (m : Method) : Settled owner [] m m := by
  refine ⟨rfl, ?_, fun unit way kind s => ?_⟩
  · cases m.body with
    | none => rfl
    | some b => rw [Option.map_some, resolveBody_of_none fun i _ => settle?_nil b.maxLocals i]
  have hid : ∀ base, settled owner [] base = id := fun base => funext fun i => by simp [settled, settle?_nil]
  have hsame : settledInstrs owner [] m = m.instrs := by
    simp [settledInstrs, Method.instrs, hid]
  rw [hsame, Method.Names]

theorem linkedBy?_iff : (∃ site, linkedBy? owner i = some (site, s)) ↔ ∃ kind, i.Names owner .linker kind s := by
  constructor
  · rintro ⟨site, h⟩
    unfold linkedBy? at h
    split at h
    · split at h
      · rename_i howner
        cases h
        exact ⟨_, .linker ⟨howner, rfl, rfl⟩⟩
      · cases h
    · cases h
  · rintro ⟨kind, h⟩
    cases h with
    | linker hfor =>
      rename_i site
      exact ⟨site, by simp [linkedBy?, hfor.1, hfor.2.2]⟩

end Methods

/-! ### Classes -/

section Classes

variable {u : ClassUnit} {s : Signature}

/-- A site that the routine links is resolved, and none is left. -/
def Spent (u : ClassUnit) (s : Signature) : Prop :=
  (∃ m ∈ u.methods, s ∈ resolvedIn u.name (linkers u) m) ∧
    ∀ m ∈ u.methods, ∀ i ∈ settledInstrs u.name (linkers u) m, ∀ kind, ¬ i.Names u.name .linker kind s

theorem mem_stillLinking {ms : List Method} (hms : List.Forall₂ (Settled u.name known) u.methods ms) :
    s ∈ stillLinking { u with methods := ms } ↔
      ∃ m ∈ u.methods, ∃ i ∈ settledInstrs u.name known m, ∃ kind, i.Names u.name .linker kind s := by
  have hlinked : s ∈ stillLinking { u with methods := ms } ↔ ∃ m ∈ ms, ∃ kind, m.Names u.name .linker kind s := by
    simp only [stillLinking, ClassUnit.mem_collect, Option.mem_toList, Option.map_eq_some_iff, Prod.exists,
      exists_eq_right, linkedBy?_iff]
    refine exists_congr fun m => and_congr_right fun _ => ?_
    exact ⟨fun ⟨i, hi, kind, h⟩ => ⟨kind, i, hi, h⟩, fun ⟨kind, i, hi, h⟩ => ⟨i, hi, kind, h⟩⟩
  rw [hlinked]
  constructor
  · rintro ⟨m', hm', kind, hnames⟩
    obtain ⟨m, hm, hsettled⟩ := exists_of_forall₂_right hms hm'
    obtain ⟨i, hi, hnames⟩ := (hsettled.names _ _ _ _).mp hnames
    exact ⟨m, hm, i, hi, kind, hnames⟩
  · rintro ⟨m, hm, i, hi, kind, hnames⟩
    obtain ⟨m', hm', hsettled⟩ := exists_of_forall₂_left hms hm
    exact ⟨m', hm', kind, (hsettled.names _ _ _ _).mpr ⟨i, hi, hnames⟩⟩

/-- What a run makes of the methods of a class: they are gone through, and those that are spent go. -/
theorem run_methods (u : ClassUnit) :
    ∃ ms, List.Forall₂ (Settled u.name (linkers u)) u.methods ms ∧
      ∀ m, m ∈ (run u).2.methods ↔ m ∈ ms ∧ ¬ Spent u m.signature := by
  obtain ⟨ms, heq, hms, hresolved⟩ := @resolveMethods_settled u.name (linkers u) [] 0 [] u.methods
  have hspent : ∀ s, Spent u s ↔
      s ∈ (resolveMethods u.name (linkers u) [] 0 [] u.methods).1 ∧ s ∉ stillLinking { u with methods := ms } := by
    intro s
    rw [hresolved, mem_stillLinking hms, Spent]
    simp
  unfold run
  dsimp only
  split
  · rename_i hnil
    rw [List.isEmpty_iff] at hnil
    refine ⟨u.methods, forall₂_same.mpr fun m _ => hnil ▸ .nil m, fun m => ?_⟩
    have hnone : ¬ Spent u m.signature := by
      rintro ⟨⟨m', -, hm'⟩, -⟩
      rw [hnil, resolvedIn] at hm'
      cases hb : m'.body <;> simp [hb, settle?_nil] at hm'
    simp [hnone]
  · rw [heq]
    refine ⟨ms, hms, fun m => ?_⟩
    rw [hspent]
    split
    · rename_i hempty
      rw [List.isEmpty_iff, filter_eq_nil_iff] at hempty
      have hkept := hempty m.signature
      simp only [contains_eq_mem, Bool.not_eq_true', decide_eq_false_iff_not] at hkept
      exact ⟨fun hm => ⟨hm, fun h => hkept h.1 h.2⟩, And.left⟩
    · simp [imp_iff_not_or]

theorem loses_iff_spent : u.Loses (run u).2 s ↔ s ∈ u.members .method ∧ Spent u s := by
  obtain ⟨_, hms, hmethods⟩ := run_methods u
  refine and_congr_right fun hs => ?_
  obtain ⟨m, hm, rfl⟩ := mem_map.mp hs
  obtain ⟨m', hm', hsettled⟩ := exists_of_forall₂_left hms hm
  constructor
  · intro hgone
    by_contra hkept
    refine hgone (mem_map.mpr ⟨m', (hmethods m').mpr ⟨hm', ?_⟩, hsettled.signature⟩)
    rwa [hsettled.signature]
  · intro hspent hstays
    obtain ⟨m'', hm'', heq⟩ := mem_map.mp hstays
    exact ((hmethods m'').mp hm'').2 (heq ▸ hspent)

/-- When the resolution of call sites leaves no reference to a routine that it took out, for every class. The
routines that are lost are those of which a site is resolved and no site is left. The code that stays does
not call one, and has no call site with a handle for one, exactly if none of its instructions is or becomes
a call of one, and none stays a site that has one for an argument. -/
theorem run_leaves_no_reference_iff (u : ClassUnit) :
    (∀ s, u.Loses (run u).2 s ↔ s ∈ u.members .method ∧ Spent u s) ∧
      ((∀ s, u.Loses (run u).2 s → ∀ m ∈ (run u).2.methods,
          ¬ m.Names u.name .call .method s ∧ ¬ m.Hands u.name s) ↔
        ∀ s ∈ u.members .method, Spent u s → ∀ m ∈ u.methods, ¬ Spent u m.signature →
          ∀ i ∈ settledInstrs u.name (linkers u) m,
            ¬ i.Names u.name .call .method s ∧ ∀ kind, ¬ i.Names u.name .argument kind s) := by
  refine ⟨fun s => loses_iff_spent, forall_congr' fun s => ?_⟩
  rw [loses_iff_spent, and_imp]
  refine imp_congr_right fun _ => imp_congr_right fun hspent => ?_
  obtain ⟨_, hms, hmethods⟩ := run_methods u
  constructor
  · intro h m hm hstays i hi
    obtain ⟨m', hm', hsettled⟩ := exists_of_forall₂_left hms hm
    obtain ⟨hcalls, hhands⟩ := h m' ((hmethods m').mpr ⟨hm', hsettled.signature ▸ hstays⟩)
    refine ⟨fun hnames => hcalls ((hsettled.names _ _ _ _).mpr ⟨i, hi, hnames⟩), fun kind hnames => hhands ?_⟩
    exact ⟨kind, .inr ((hsettled.names _ _ _ _).mpr ⟨i, hi, hnames⟩)⟩
  · intro h m' hm'
    obtain ⟨hm', hstays⟩ := (hmethods m').mp hm'
    obtain ⟨m, hm, hsettled⟩ := exists_of_forall₂_right hms hm'
    have hall := h m hm (hsettled.signature ▸ hstays)
    constructor
    · intro hnames
      obtain ⟨i, hi, hnames⟩ := (hsettled.names _ _ _ _).mp hnames
      exact (hall i hi).1 hnames
    · rintro ⟨kind, hlinker | hargument⟩
      -- a site that the routine links would have kept it
      · obtain ⟨i, hi, hnames⟩ := (hsettled.names _ _ _ _).mp hlinker
        exact hspent.2 m hm i hi kind hnames
      · obtain ⟨i, hi, hnames⟩ := (hsettled.names _ _ _ _).mp hargument
        exact (hall i hi).2 kind hnames

end Classes

/-- The signature of a linking routine. -/
def linkingRoutine : Signature := ⟨"b", linkerParams ++ linkerResult⟩

/-- A handle for the method of this owner with the signature of the routine. -/
def linkingHandle (owner : String) : Handle := ⟨6, ⟨owner, linkingRoutine.name, linkingRoutine.descriptor⟩, false⟩

/-- A site that another class links, and that has a handle for the routine as its argument. -/
def foreignSite : CallSite := ⟨2, "t", "()V", 1, linkingHandle "x/Y", [.handle (linkingHandle "A")]⟩

/-- A routine links the site of a method, which also calls the routine directly. -/
def linkedClass : ClassUnit :=
  { (default : ClassUnit) with
    name := "A"
    methods :=
      [.ofInstrs 8 linkingRoutine.name linkingRoutine.descriptor
        [.push (.text (.ofString "x/Y")), .stack .pop, .push (.text (.ofString "f")), .stack .pop, .push .null,
         .leave (some .ref)],
       .ofInstrs 8 "m" "()V"
        [.invokeDynamic ⟨1, "s", "()V", 0, linkingHandle "A", []⟩, .push .null, .push .null, .push .null,
         .callOf linkingRoutine, .stack .pop, .invokeDynamic foreignSite, .leave none]] }

/-- The routine is taken out, though it is called directly and another site has a handle for it. -/
theorem linkedClass_leaves_references :
    linkedClass.Loses (run linkedClass).2 linkingRoutine ∧
      (∃ m ∈ (run linkedClass).2.methods, m.Names "A" .call .method linkingRoutine) ∧
      ∃ m ∈ (run linkedClass).2.methods, m.Names "A" .argument .method linkingRoutine := by
  have hrun : linkedClass.Loses (run linkedClass).2 linkingRoutine ∧
      ∃ m ∈ (run linkedClass).2.methods,
        .callOf linkingRoutine ∈ m.instrs ∧ .invokeDynamic foreignSite ∈ m.instrs := by
    decide +kernel
  obtain ⟨hlost, m, hm, hcall, hsite⟩ := hrun
  refine ⟨hlost, ⟨m, hm, _, hcall, .call _ _ rfl⟩, m, hm, _, hsite, ?_⟩
  exact .argument (mem_singleton.mpr rfl) ⟨rfl, rfl, rfl⟩

end CallSites

end Untangle
