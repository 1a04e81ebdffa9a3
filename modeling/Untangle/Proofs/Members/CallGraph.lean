import Mathlib.Algebra.GroupWithZero.Nat
import Mathlib.Algebra.Order.BigOperators.Group.List
import Mathlib.Algebra.Order.Group.Nat
import Mathlib.Data.Finset.Card
import Mathlib.Data.List.Flatten
import Mathlib.Logic.Relation
import Untangle.Instr

/-!
# Calls inside a class

The methods of a class with the methods that each of them calls. Some methods have a stand-in, one of the
methods that they call: whoever calls such a method calls the stand-in instead. The method itself keeps its
calls, and a stand-in has no stand-in.

No call leads further than before. One that was rerouted no longer leads to the method that it left out: from
a method without a stand-in, only such methods can be reached any more. So the number of methods that a call
leads to, summed up over all calls, goes down with every call that is rerouted, whatever cycles the calls form.
-/

namespace Untangle

open List

/-- Methods with what they call, once for each call. -/
abbrev CallGraph := List (Signature × List Signature)

namespace CallGraph

variable {g h : CallGraph} {all : Finset Signature} {standIn : Signature → Option Signature} {a b k : Signature}

/-- One method calls another. -/
def Edge (g : CallGraph) (a b : Signature) : Prop := ∃ callees, (a, callees) ∈ g ∧ b ∈ callees

/-- One method calls another in the end, or is the other. -/
abbrev Leads (g : CallGraph) : Signature → Signature → Prop := Relation.ReflTransGen g.Edge

/-- What is called, once for each call. -/
def sites (g : CallGraph) : List Signature := g.flatMap Prod.snd

theorem sites_cons (p : Signature × List Signature) (g : CallGraph) : sites (p :: g) = p.2 ++ g.sites := rfl

theorem mem_sites : k ∈ g.sites ↔ ∃ a, g.Edge a k := by simp [sites, Edge]

open Classical in
/-- How many of some methods a call of a method leads to. -/
noncomputable def span (all : Finset Signature) (g : CallGraph) (a : Signature) : Nat :=
  (all.filter (g.Leads a)).card

/-- The methods that the calls lead to, counted for each call. -/
noncomputable def weight (all : Finset Signature) (g : CallGraph) : Nat := (g.sites.map (span all g)).sum

open Classical in
theorem span_le (all : Finset Signature) (g : CallGraph) (a : Signature) : span all g a ≤ all.card :=
  Finset.card_filter_le _ _

theorem weight_le (all : Finset Signature) (g : CallGraph) : weight all g ≤ g.sites.length * all.card := by
  have h := sum_le_card_nsmul (g.sites.map (span all g)) all.card fun n hn => by
    obtain ⟨a, -, rfl⟩ := mem_map.mp hn
    exact span_le all g a
  simpa [weight] using h

open Classical in
theorem span_mono (hle : ∀ c, g.Leads a c → h.Leads b c) : span all g a ≤ span all h b :=
  Finset.card_le_card (all.monotone_filter_right fun c _ => hle c)

open Classical in
/-- A call leads to fewer methods if it no longer leads to one that it led to. -/
theorem span_lt (hle : ∀ c, g.Leads a c → h.Leads b c) (hk : k ∈ all) (hb : h.Leads b k) (ha : ¬ g.Leads a k) :
    span all g a < span all h b := by
  refine Finset.card_lt_card ((Finset.ssubset_iff_of_subset
    (all.monotone_filter_right fun c _ => hle c)).mpr ?_)
  exact ⟨k, Finset.mem_filter.mpr ⟨hk, hb⟩, fun h => ha (Finset.mem_filter.mp h).2⟩

/-! ### Fewer methods -/

theorem sites_sublist (hsub : h.Sublist g) : h.sites.Sublist g.sites := hsub.flatMap Prod.snd

theorem weight_sublist (all : Finset Signature) (hsub : h.Sublist g) : weight all h ≤ weight all g := by
  have hedges : ∀ a b, h.Edge a b → g.Edge a b := fun a b hab =>
    hab.imp fun _ hc => ⟨hsub.subset hc.1, hc.2⟩
  have hleads : ∀ a b, h.Leads a b → g.Leads a b := fun a b => Relation.ReflTransGen.mono hedges a b
  calc weight all h ≤ (h.sites.map (span all g)).sum := sum_le_sum fun a _ => span_mono (hleads a)
    _ ≤ weight all g := ((sites_sublist hsub).map _).sum_le_sum fun _ _ => Nat.zero_le _

/-! ### Stand-ins -/

/-- Calls the stand-in of a method instead of the method. A method with a stand-in keeps its own calls. -/
def reroute (standIn : Signature → Option Signature) (g : CallGraph) : CallGraph :=
  g.map fun p => if (standIn p.1).isSome then p else (p.1, p.2.map fun k => (standIn k).getD k)

/-- How many calls are rerouted. -/
def rerouted (standIn : Signature → Option Signature) (g : CallGraph) : Nat :=
  (g.map fun p => if (standIn p.1).isSome then 0 else p.2.countP fun k => (standIn k).isSome).sum

/-- A call afterwards is an old one, which then is made by a method with a stand-in or calls one without; or
it calls a stand-in. -/
theorem edge_reroute (hedge : (reroute standIn g).Edge a b) :
    g.Edge a b ∧ ((standIn a).isSome ∨ standIn b = none) ∨ ∃ k, g.Edge a k ∧ standIn k = some b := by
  obtain ⟨callees, hentry, hb⟩ := hedge
  obtain ⟨p, hp, heq⟩ := mem_map.mp hentry
  split at heq
  · rename_i hstand
    subst heq
    exact .inl ⟨⟨callees, hp, hb⟩, .inl hstand⟩
  · cases heq
    obtain ⟨k, hk, hkb⟩ := mem_map.mp hb
    cases hpk : standIn k with
    | none =>
      rw [hpk] at hkb
      cases hkb
      exact .inl ⟨⟨p.2, hp, hk⟩, .inr hpk⟩
    | some c =>
      rw [hpk] at hkb
      cases hkb
      exact .inr ⟨k, ⟨p.2, hp, hk⟩, hpk⟩

/-- A stand-in is what the method calls, and has no stand-in itself. -/
structure StandIns (standIn : Signature → Option Signature) (g : CallGraph) : Prop where
  calls : ∀ {a b}, standIn a = some b → g.Edge a b
  ends : ∀ {a b}, standIn a = some b → standIn b = none

namespace StandIns

variable (hs : StandIns standIn g)

include hs

/-- No method leads further than before. -/
theorem leads_reroute (hleads : (reroute standIn g).Leads a b) : g.Leads a b := by
  induction hleads with
  | refl => exact .refl
  | tail _ hedge ih =>
    rcases edge_reroute hedge with ⟨hold, -⟩ | ⟨k, hfirst, hk⟩
    · exact ih.tail hold
    · exact (ih.tail hfirst).tail (hs.calls hk)

/-- A method without a stand-in leads only to such methods. -/
theorem standIn_of_leads (ha : standIn a = none) (hleads : (reroute standIn g).Leads a b) : standIn b = none := by
  induction hleads with
  | refl => exact ha
  | tail _ hedge ih =>
    rcases edge_reroute hedge with ⟨-, hstand | hstand⟩ | ⟨k, -, hk⟩
    · simp [ih] at hstand
    · exact hstand
    · exact hs.ends hk

theorem span_reroute_le (a : Signature) : span all (reroute standIn g) a ≤ span all g a :=
  span_mono fun _ => hs.leads_reroute

/-- A call of the stand-in leads to fewer methods than a call of the method did. -/
theorem span_reroute_lt (hk : k ∈ all) (hstand : standIn k = some b) :
    span all (reroute standIn g) b < span all g k := by
  refine span_lt (fun c hc => ?_) hk .refl fun hleads => ?_
  · exact (hs.leads_reroute hc).head (hs.calls hstand)
  · have := hs.standIn_of_leads (hs.ends hstand) hleads
    rw [hstand] at this
    cases this

end StandIns

section Sums

variable {w w' : Signature → Nat} (hle : ∀ k, w' k ≤ w k)

include hle

theorem sum_rerouted_callees {ks : List Signature} (hlt : ∀ k ∈ ks, ∀ b, standIn k = some b → w' b < w k) :
    ((ks.map fun k => (standIn k).getD k).map w').sum + ks.countP (fun k => (standIn k).isSome) ≤ (ks.map w).sum := by
  induction ks with
  | nil => simp
  | cons k ks ih =>
    have hrest := ih fun k' hk' => hlt k' (mem_cons_of_mem _ hk')
    cases hstand : standIn k with
    | none =>
      have := hle k
      simp only [map_cons, sum_cons, countP_cons, hstand, Option.getD_none, Option.isSome_none,
        Bool.false_eq_true, if_false]
      omega
    | some b =>
      have := hlt k mem_cons_self b hstand
      simp only [map_cons, sum_cons, countP_cons, hstand, Option.getD_some, Option.isSome_some, if_true]
      omega

theorem sum_reroute (hlt : ∀ k ∈ g.sites, ∀ b, standIn k = some b → w' b < w k) :
    ((reroute standIn g).sites.map w').sum + rerouted standIn g ≤ (g.sites.map w).sum := by
  induction g with
  | nil => simp [reroute, rerouted, sites]
  | cons p g ih =>
    have hrest := ih fun k hk => hlt k (mem_append_right _ hk)
    have hfirst := sum_rerouted_callees hle fun k hk => hlt k (mem_append_left _ hk)
    have hkept : (p.2.map w').sum ≤ (p.2.map w).sum := sum_le_sum fun k _ => hle k
    simp only [reroute, rerouted, map_cons, sites_cons, map_append, sum_append, sum_cons]
      at hrest ⊢
    split
    · omega
    · dsimp only
      omega

end Sums

/-- Every call that is rerouted takes something off the weight. -/
theorem weight_reroute (hs : StandIns standIn g) (hall : ∀ k ∈ g.sites, k ∈ all) :
    weight all (reroute standIn g) + rerouted standIn g ≤ weight all g :=
  sum_reroute hs.span_reroute_le fun k hk _ hstand => hs.span_reroute_lt (hall k hk) hstand

/-- Nothing is called that was not called before. -/
theorem mem_sites_of_reroute (hs : StandIns standIn g) (hk : k ∈ (reroute standIn g).sites) : k ∈ g.sites := by
  obtain ⟨a, ha⟩ := mem_sites.mp hk
  rcases edge_reroute ha with ⟨hold, -⟩ | ⟨c, -, hc⟩
  · exact mem_sites.mpr ⟨a, hold⟩
  · exact mem_sites.mpr ⟨c, hs.calls hc⟩

end CallGraph

end Untangle
