import Untangle.Proofs.CallSites.Construction

/-!
# Names at call sites

A site's own name can spell a class and a method with an underscore between them. The class ends behind its last
separator at the first underscore, so every class whose last part has none is read back, together with any
identifier for the method. What is spelled there is not checked the way that the texts of a linking routine are:
a call always names a method properly, but its class only if the texts told it or all parts of the site's name
are identifiers and the last of them does not start with the underscore.
-/

namespace Untangle

open List

variable {site owner name : String} {h : Hints}

namespace CallSites

/-! ### Parts of names -/

/-- There are no separators in identifiers. -/
theorem isSeparator_of_isIdentifier {cs : List Char} (h : isIdentifier cs = true) {c : Char} (hc : c ∈ cs) :
    isSeparator c = false := by
  have hchar := all_eq_true.mp (Bool.and_eq_true_iff.mp h).2 c hc
  rw [Bool.eq_false_iff]
  intro hsep
  simp only [isSeparator, Bool.or_eq_true, beq_iff_eq] at hsep
  rcases hsep with rfl | rfl
  · exact absurd hchar (by decide)
  · exact absurd hchar (by decide)

theorem segments_eq_splitOn (cs : List Char) : segments cs = cs.splitOn '/' := by
  induction cs with
  | nil => rfl
  | cons c cs ih =>
    rw [splitOn_cons_eq_if_modifyHead, ← ih]
    by_cases hc : c = '/'
    · simp [segments, hc]
    · simp [segments, hc]

/-- With slashes between them, the parts of a class name are the same. -/
theorem splitOn_internalName (cs : List Char) : (internalName cs).splitOn '/' = cs.splitOnP isSeparator := by
  induction cs with
  | nil => rfl
  | cons c cs ih =>
    rw [splitOnP_cons_eq_if_modifyHead, ← ih]
    have hcons : internalName (c :: cs) = (if c = '.' then '/' else c) :: internalName cs := rfl
    rw [hcons, splitOn_cons_eq_if_modifyHead]
    by_cases hdot : c = '.'
    · simp [hdot, isSeparator]
    · simp [hdot, isSeparator]

/-- Either there is no separator, or there is a last one. -/
theorem last_separator (cs : List Char) : (∀ c ∈ cs, isSeparator c = false) ∨
    ∃ packages sep last, cs = packages ++ sep :: last ∧ isSeparator sep = true ∧ ∀ c ∈ last, isSeparator c = false := by
  cases h : cs.reverse.find? isSeparator with
  | none => exact .inl (by simpa using h)
  | some sep =>
    obtain ⟨hsep, as, bs, hcs, has⟩ := find?_eq_some_iff_append.mp h
    refine .inr ⟨bs.reverse, sep, as.reverse, ?_, hsep, by simpa using has⟩
    rw [← cs.reverse_reverse, hcs]
    simp

section Splitting

variable {packages last : List Char} {sep : Char}

theorem splitOnP_last (hsep : isSeparator sep = true) (hlast : ∀ c ∈ last, isSeparator c = false) :
    (packages ++ sep :: last).splitOnP isSeparator = packages.splitOnP isSeparator ++ [last] := by
  rw [splitOnP_append_cons _ _ hsep, splitOnP_eq_singleton hlast]

/-- The class ends at the first underscore behind the last separator. -/
theorem splitSiteName_ofList (hsep : isSeparator sep = true) (hlast : ∀ c ∈ last, isSeparator c = false) :
    splitSiteName (String.ofList (packages ++ sep :: last)) =
      (last.dropWhile (· != '_')).tail?.bind fun name =>
        if isIdentifier name then
          some (String.ofList (internalName (packages ++ sep :: last.takeWhile (· != '_'))), String.ofList name)
        else none := by
  have hback : (packages ++ sep :: last).reverse = last.reverse ++ sep :: packages.reverse := by simp
  have hall : ∀ c ∈ last.reverse, (!isSeparator c) = true := by simpa using hlast
  unfold splitSiteName
  rw [String.toList_ofList, hback]
  simp only [dropWhile_append_of_pos hall, takeWhile_append_of_pos hall, hsep, Bool.not_true, Bool.false_eq_true,
    not_false_eq_true, dropWhile_cons_of_neg, takeWhile_cons_of_neg, append_nil, reverse_reverse, reverse_cons]
  cases last.dropWhile (· != '_') with
  | nil => cases packages <;> rfl
  | cons u name => cases packages <;> simp

/-- The names that are split: packages, a separator, the last part of the class, an underscore, an identifier. -/
theorem splitSiteName_eq_some_iff : splitSiteName site = some (owner, name) ↔
    ∃ packages sep last, site.toList = packages ++ sep :: (last ++ '_' :: name.toList) ∧ isSeparator sep = true ∧
      (∀ c ∈ last ++ '_' :: name.toList, isSeparator c = false) ∧ '_' ∉ last ∧ isIdentifier name.toList = true ∧
      owner = String.ofList (internalName (packages ++ sep :: last)) := by
  have hne : ∀ {cs : List Char}, '_' ∉ cs → ∀ c ∈ cs, (c != '_') = true :=
    fun hcs c hc => by simpa using ne_of_mem_of_not_mem hc hcs
  constructor
  · intro h
    rcases last_separator site.toList with hnone | ⟨packages, sep, tail, hsite, hsep, htail⟩
    · have hdrop : site.toList.reverse.dropWhile (fun c => !isSeparator c) = [] :=
        dropWhile_eq_nil_iff.mpr (by simpa using hnone)
      simp [splitSiteName, hdrop] at h
    rw [← site.ofList_toList, hsite, splitSiteName_ofList hsep htail] at h
    by_cases hword : '_' ∈ tail
    · obtain ⟨last, _, rfl, hlast⟩ := eq_append_cons_of_mem hword
      simp [dropWhile_append_of_pos (hne hlast), takeWhile_append_of_pos (hne hlast)] at h
      obtain ⟨hname, rfl, rfl⟩ := h
      exact ⟨packages, sep, last, by simpa using hsite, hsep, by simpa using htail, hlast, by simpa using hname, rfl⟩
    · rw [dropWhile_eq_nil_iff.mpr (hne hword)] at h
      cases h
  · rintro ⟨packages, sep, last, hsite, hsep, htail, hword, hname, rfl⟩
    rw [← site.ofList_toList, hsite, splitSiteName_ofList hsep htail]
    simp [dropWhile_append_of_pos (hne hword), takeWhile_append_of_pos (hne hword), hname]

/-- A class of at least two parts, of which the last has no underscore, and any identifier are read back from the
site name that spells them, the class with slashes between its parts. -/
theorem splitSiteName_encoded {owner name : String} (hparts : 2 ≤ (owner.toList.splitOnP isSeparator).length)
    (hlast : ∀ part ∈ (owner.toList.splitOnP isSeparator).getLast?, '_' ∉ part)
    (hname : isIdentifier name.toList = true) :
    splitSiteName (owner ++ "_" ++ name) = some (String.ofList (internalName owner.toList), name) := by
  rcases last_separator owner.toList with hnone | ⟨packages, sep, last, howner, hsep, hfree⟩
  · rw [splitOnP_eq_singleton hnone, length_singleton] at hparts
    omega
  rw [howner, splitOnP_last hsep hfree, getLast?_concat] at hlast
  refine splitSiteName_eq_some_iff.mpr
    ⟨packages, sep, last, by simp [howner], hsep, fun c hc => ?_, hlast last rfl, hname, by rw [howner]⟩
  rw [mem_append, mem_cons] at hc
  rcases hc with hc | rfl | hc
  · exact hfree c hc
  · rfl
  · exact isSeparator_of_isIdentifier hname hc

theorem splitSiteName_accented : splitSiteName "a.b_c/Été_größe_1" = some ("a/b_c/Été", "größe_1") :=
  @splitSiteName_encoded "a.b_c/Été" "größe_1" (by decide) (by decide) (by decide)

end Splitting

/-! ### Valid names -/

/-- Identifiers with slashes between them. -/
def IsClassName (name : String) : Prop := ∀ part ∈ name.toList.splitOn '/', isIdentifier part = true

/-- An identifier, or the name of constructors. -/
def IsMemberName (name : String) : Prop := isIdentifier name.toList = true ∨ name = "<init>"

/-- Whatever is known of the names, they are valid. -/
structure Hints.Named (h : Hints) : Prop where
  owner : ∀ owner ∈ h.owner, IsClassName owner
  name : ∀ name ∈ h.name, IsMemberName name

theorem Hints.Named.classify (hn : h.Named) (text : String) : (h.classify text).Named := by
  unfold Hints.classify
  dsimp only
  split
  · exact hn
  split
  · split
    · next hvalid =>
      refine ⟨fun owner howner => ?_, hn.name⟩
      cases howner
      simpa [IsClassName, segments_eq_splitOn] using (Bool.and_eq_true_iff.mp hvalid).2
    · exact hn
  · split
    · next hvalid =>
      refine ⟨hn.owner, fun name hname => ?_⟩
      cases hname
      simpa [IsMemberName] using (Bool.and_eq_true_iff.mp hvalid).2
    · exact hn

theorem Hints.Named.foldl (hn : h.Named) (texts : List String) : (texts.foldl Hints.classify h).Named :=
  texts.foldlRecOn _ hn fun _ hn text _ => hn.classify text

theorem Hints.named_ofLinker (linker : Method) : (Hints.ofLinker linker).Named := by
  have h : ((linker.instrs.filterMap text?).foldl classify {}).Named := Named.foldl ⟨by simp, by simp⟩ _
  exact ⟨h.owner, h.name⟩

/-- The class is known, and so is the method unless it is a constructor. -/
def Hints.Tells (h : Hints) : Prop := h.owner.isSome ∧ (h.name.isSome ∨ h.lookup = some .constructor)

/-- Between separators there are identifiers, the last of which does not start with an underscore. -/
def SpellsClassName (siteName : String) : Prop :=
  (∀ part ∈ siteName.toList.splitOnP isSeparator, isIdentifier part = true) ∧
    ∀ part ∈ (siteName.toList.splitOnP isSeparator).getLast?, part.head? ≠ some '_'

theorem isIdentifier_append_underscore {name : List Char} (hword : '_' ∉ last) (hname : isIdentifier name = true) :
    isIdentifier last = true ↔
      isIdentifier (last ++ '_' :: name) = true ∧ (last ++ '_' :: name).head? ≠ some '_' := by
  have hall := (Bool.and_eq_true_iff.mp hname).2
  cases last with
  | nil => simp [isIdentifier]
  | cons c last =>
    have hc : c ≠ '_' := fun hc => hword (hc ▸ mem_cons_self)
    simp [isIdentifier, hall, hc]

theorem isClassName_iff_spells (h : splitSiteName site = some (owner, name)) :
    IsClassName owner ↔ SpellsClassName site := by
  obtain ⟨_, _, last, hsite, hsep, htail, hword, hname, rfl⟩ := splitSiteName_eq_some_iff.mp h
  have hlast : ∀ c ∈ last, isSeparator c = false := fun c hc => htail c (mem_append_left _ hc)
  rw [IsClassName, SpellsClassName, String.toList_ofList, splitOn_internalName, splitOnP_last hsep hlast, hsite,
    splitOnP_last hsep htail, forall_mem_append, forall_mem_append, forall_mem_singleton,
    isIdentifier_append_underscore hword hname, and_assoc]
  simp

/-- The target is told by valid names, or else spelled by the site's own name. -/
theorem target?_cases (hn : h.Named) {lookup : Lookup} {site : CallSite}
    (hlookup : lookup = .constructor ↔ h.lookup = some .constructor) (ht : h.target? lookup site = some (owner, name)) :
    (h.Tells ∧ IsClassName owner ∧ IsMemberName name) ∨ (¬ h.Tells ∧ splitSiteName site.name = some (owner, name)) := by
  rw [Hints.Tells, ← hlookup]
  unfold Hints.target? at ht
  cases howner : h.owner with
  | none =>
    rw [howner] at ht
    exact .inr ⟨by simp, ht⟩
  | some o =>
    cases hname : h.name with
    | none =>
      simp only [howner, hname] at ht
      split at ht
      · next hc =>
        cases ht
        exact .inl ⟨by simp [hc], hn.owner _ howner, .inr rfl⟩
      · next hc => exact .inr ⟨by simp [hc], ht⟩
    | some n =>
      simp only [howner, hname] at ht
      cases ht
      refine .inl ⟨by simp, hn.owner _ howner, ?_⟩
      split
      · exact .inr rfl
      · exact hn.name _ hname

/-- The call that a site is resolved to names an identifier or the constructors. Its class has a valid name
exactly if the texts told it, or all parts of the site's name are identifiers and the last does not start with
an underscore. -/
theorem resolve_names {linker : Method} {site : CallSite} {base : UInt16} {r : Replacement}
    (h : resolve site (.ofLinker linker) base = some r) :
    ∃ kind member, r.call = .invoke kind member false ∧ IsMemberName member.name ∧
      (IsClassName member.owner ↔
        ((Hints.ofLinker linker).withArguments site).Tells ∨ SpellsClassName site.name) := by
  obtain ⟨_, owner, name, d, hlookup, htarget, -, hr⟩ := resolve_cases h
  have hnamed : ((Hints.ofLinker linker).withArguments site).Named := (Hints.named_ofLinker linker).foldl _
  have hcases := target?_cases hnamed hlookup htarget
  have hname : IsMemberName name := by
    rcases hcases with ⟨-, -, hname⟩ | ⟨-, hsplit⟩
    · exact hname
    · obtain ⟨_, _, _, -, -, -, -, hname, -⟩ := splitSiteName_eq_some_iff.mp hsplit
      exact .inl hname
  have howner : IsClassName owner ↔
      ((Hints.ofLinker linker).withArguments site).Tells ∨ SpellsClassName site.name := by
    rcases hcases with ⟨htells, howner, -⟩ | ⟨hnot, hsplit⟩
    · exact iff_of_true howner (.inl htells)
    · rw [isClassName_iff_spells hsplit, or_iff_right hnot]
  rcases hr with ⟨-, kind, _, rfl⟩ | ⟨-, hcall⟩
  · exact ⟨kind, _, rfl, hname, howner⟩
  · rw [(eq_of_constructorCall hcall).2]
    exact ⟨_, _, rfl, .inr rfl, howner⟩

/-- A linking routine that gives nothing away. -/
def silentLinker : Method :=
  .ofInstrs 8 linkingRoutine.name linkingRoutine.descriptor [.push .null, .leave (some .ref)]

/-- A site that such a routine links. -/
def siteNamed (name : String) : CallSite := ⟨1, name, "()V", 0, linkingHandle "A", []⟩

theorem resolve_names_spelled :
    resolve (siteNamed "p.q/C_f_1") (.ofLinker silentLinker) 0 =
        some { call := .invoke .static ⟨"p/q/C", "f_1", "()V"⟩ false } ∧
      IsMemberName "f_1" ∧ IsClassName "p/q/C" := by
  have hresolve : resolve (siteNamed "p.q/C_f_1") (.ofLinker silentLinker) 0 =
      some { call := .invoke .static ⟨"p/q/C", "f_1", "()V"⟩ false } := rfl
  obtain ⟨_, _, hcall, hname, howner⟩ := resolve_names hresolve
  cases hcall
  refine ⟨hresolve, hname, howner.mpr (.inr ?_)⟩
  unfold SpellsClassName
  decide

/-- An underscore right behind the separator leaves the last part of the class empty. -/
theorem resolve_names_empty_part :
    isLinker silentLinker = true ∧
      resolve (siteNamed "p/_f") (.ofLinker silentLinker) 0 =
        some { call := .invoke .static ⟨"p/", "f", "()V"⟩ false } ∧
      ¬ IsClassName "p/" := by
  refine ⟨by decide +kernel, rfl, ?_⟩
  unfold IsClassName
  decide

end CallSites

end Untangle
