import Mathlib.Data.List.Chain
import Mathlib.Data.List.Nodup
import Mathlib.Data.List.Perm.Subperm
import Mathlib.Data.Nat.Find
import Mathlib.Logic.Relation
import Savefile.Proofs.Linking

/-!
# Types that contain themselves

A type contains another if each of its records holds one of the other in full. A type that contains
itself through any number of others has no finite records; following chains of types finds it out.
The search enters no type twice on one chain, so it ends on every schema, and what it finds is a way
from the first such type back to it.
-/
namespace Savefile

theorem Field.isComposite_of_isPlainComposite {f : Field} (h : f.isPlainComposite = true) :
    f.type.kind.isComposite = true := by
  simp only [isPlainComposite, Bool.and_eq_true] at h
  exact h.2

namespace Schema

/-- Every record of the first type holds one of the second. -/
def Contains (s : Schema) (a b : String) : Prop :=
  ∃ t, s.declared? a = some t ∧ ∃ f ∈ t.fields, f.isPlainComposite = true ∧ f.type.name = b

variable {s : Schema} {start a b : String} {n : Nat}

/-- What a chain of types comes back to is contained in its last type. -/
theorem transGen_of_chainBack? {fuel : Nat} {chain found : List String}
    (h : s.chainBack? start fuel chain = some found) (ha : chain.head? = some a) :
    Relation.TransGen s.Contains a start := by
  induction fuel generalizing a chain with
  | zero => cases h
  | succ fuel ih =>
    rw [chainBack?, ha, Option.bind_some] at h
    obtain ⟨t, ht, h⟩ := Option.bind_eq_some_iff.mp h
    obtain ⟨f, hf, h⟩ := List.exists_of_findSome?_eq_some h
    split at h
    · cases h
    · rename_i hplain
      have hcontains : s.Contains a f.type.name := ⟨t, ht, f, hf, by simpa using hplain, rfl⟩
      split at h
      · rename_i hstart
        rw [beq_iff_eq.mp hstart] at hcontains
        exact .single hcontains
      · split at h
        · cases h
        · exact .head hcontains (ih h rfl)

/-- The type contains the start through `n` others. -/
def ContainsWithin (s : Schema) (start : String) : Nat → String → Prop
  | 0, a => s.Contains a start
  | n + 1, a => ∃ b, s.Contains a b ∧ ContainsWithin s start n b

theorem exists_containsWithin (h : Relation.TransGen s.Contains a start) :
    ∃ n, s.ContainsWithin start n a := by
  induction h using Relation.TransGen.head_induction_on with
  | single h => exact ⟨0, h⟩
  | head h _ ih =>
    obtain ⟨n, hn⟩ := ih
    exact ⟨n + 1, _, h, hn⟩

theorem ContainsWithin.declared (h : s.ContainsWithin start n a) :
    a ∈ s.types.map (·.name) := by
  have hcontains : ∃ b, s.Contains a b := by
    cases n with
    | zero => exact ⟨start, h⟩
    | succ n =>
      obtain ⟨b, hb, _⟩ := h
      exact ⟨b, hb⟩
  obtain ⟨b, t, ht, _⟩ := hcontains
  exact List.mem_map.mpr ⟨t, mem_of_declared? ht, declared?_name ht⟩

theorem chainBack?_step {fuel : Nat} {chain : List String} (h : s.Contains a b)
    (hb : b = start ∨ b ∉ a :: chain ∧ s.chainBack? start fuel (b :: a :: chain) ≠ none) :
    s.chainBack? start (fuel + 1) (a :: chain) ≠ none := by
  obtain ⟨t, ht, f, hf, hplain, rfl⟩ := h
  rw [chainBack?, List.head?_cons, Option.bind_some, ht, Option.bind_some]
  intro hnone
  have hfield := List.findSome?_eq_none_iff.mp hnone f hf
  rcases hb with hstart | ⟨hfresh, hnext⟩
  · simp [hplain, hstart] at hfield
  · have hcontains : (a :: chain).contains f.type.name = false := by simpa using hfresh
    simp only [hplain, Bool.not_true, Bool.false_eq_true, if_false, hcontains] at hfield
    split at hfield
    · cases hfield
    · exact hnext hfield

/-- There are no more types on a chain than there are types. -/
theorem exists_fuel {fuel : Nat} {chain : List String} (hnodup : chain.Nodup)
    (hdeclared : ∀ x ∈ chain, x ∈ s.types.map (·.name))
    (hfuel : s.types.length < fuel + chain.length) : ∃ k, fuel = k + 1 := by
  have hlength := (List.subperm_of_subset hnodup hdeclared).length_le
  rw [List.length_map] at hlength
  exact ⟨fuel - 1, by omega⟩

/-- A start that is contained in the last type of a chain is found. The way taken is a shortest one,
so that it never comes back to the chain: the types on the chain are farther from the start. -/
theorem chainBack?_ne_none {fuel : Nat} {chain : List String} (h : s.ContainsWithin start n a)
    (hleast : ∀ m < n, ¬s.ContainsWithin start m a)
    (hfar : ∀ x ∈ chain, ∀ m ≤ n, ¬s.ContainsWithin start m x) (hnodup : (a :: chain).Nodup)
    (hdeclared : ∀ x ∈ a :: chain, x ∈ s.types.map (·.name))
    (hfuel : s.types.length < fuel + (a :: chain).length) :
    s.chainBack? start fuel (a :: chain) ≠ none := by
  induction n generalizing a chain fuel with
  | zero =>
    obtain ⟨fuel, rfl⟩ := exists_fuel hnodup hdeclared hfuel
    exact chainBack?_step h (.inl rfl)
  | succ n ih =>
    obtain ⟨fuel, rfl⟩ := exists_fuel hnodup hdeclared hfuel
    obtain ⟨b, hab, hb⟩ := h
    have hfar' : ∀ x ∈ a :: chain, ∀ m ≤ n, ¬s.ContainsWithin start m x := by
      intro x hx m hm
      rcases List.mem_cons.mp hx with rfl | hx
      · exact hleast m (by omega)
      · exact hfar x hx m (by omega)
    have hfresh : b ∉ a :: chain := fun hmem => hfar' b hmem n (Nat.le_refl n) hb
    refine chainBack?_step hab (.inr ⟨hfresh, ih hb ?_ hfar' ?_ ?_ ?_⟩)
    · intro m hm hbm
      exact hleast (m + 1) (by omega) ⟨b, hab, hbm⟩
    · exact List.nodup_cons.mpr ⟨hfresh, hnodup⟩
    · exact List.forall_mem_cons.mpr ⟨hb.declared, hdeclared⟩
    · rw [List.length_cons]
      omega

/-- The search for a chain from a type back to itself is exact. -/
theorem selfChain?_eq_none_iff :
    s.selfChain? start = none ↔ ¬Relation.TransGen s.Contains start start := by
  unfold selfChain?
  rw [Option.map_eq_none_iff]
  constructor
  · intro hnone h
    classical
    have hex := exists_containsWithin h
    have hfound := Nat.find_spec hex
    refine chainBack?_ne_none hfound (fun m => Nat.find_min hex) (by simp)
      (List.nodup_singleton start) ?_ ?_ hnone
    · simpa using hfound.declared
    · rw [List.length_singleton]
      omega
  · intro hnot
    cases hfound : s.chainBack? start (s.types.length + 1) [start] with
    | none => rfl
    | some found => exact absurd (transGen_of_chainBack? hfound rfl) hnot

/-- What a search that may take `fuel` further steps finds behind one field of the last type of a
chain. -/
def follow (s : Schema) (start : String) (fuel : Nat) (chain : List String) (f : Field) :
    Option (List String) :=
  if !f.isPlainComposite then none
  else if f.type.name == start then some (f.type.name :: chain)
  else if chain.contains f.type.name then none
  else s.chainBack? start fuel (f.type.name :: chain)

theorem chainBack?_succ {fuel : Nat} {chain : List String} {t : RecordType}
    (ht : s.declared? a = some t) :
    s.chainBack? start (fuel + 1) (a :: chain) =
      t.fields.findSome? (s.follow start fuel (a :: chain)) := by
  rw [chainBack?, List.head?_cons, Option.bind_some, ht, Option.bind_some]
  rfl

/-- How a search ends that looks through the fields that are left of the last type of a chain, with
no bound on its steps: it enters the types that are not on the chain and comes back from those
behind which the start is not met. -/
inductive Searches (s : Schema) (start : String) :
    List String → List Field → Option (List String) → Prop
  | exhausted {chain : List String} : Searches s start chain [] none
  | other {chain : List String} {f : Field} {fs : List Field} {found : Option (List String)} :
      f.isPlainComposite = false → Searches s start chain fs found →
      Searches s start chain (f :: fs) found
  | met {chain : List String} {f : Field} {fs : List Field} :
      f.isPlainComposite = true → f.type.name = start →
      Searches s start chain (f :: fs) (some (start :: chain))
  | onChain {chain : List String} {f : Field} {fs : List Field} {found : Option (List String)} :
      f.isPlainComposite = true → f.type.name ≠ start → f.type.name ∈ chain →
      Searches s start chain fs found → Searches s start chain (f :: fs) found
  | behind {chain found : List String} {f : Field} {fs : List Field} {t : RecordType} :
      f.isPlainComposite = true → f.type.name ≠ start → f.type.name ∉ chain →
      s.declared? f.type.name = some t →
      Searches s start (f.type.name :: chain) t.fields (some found) →
      Searches s start chain (f :: fs) (some found)
  | deadEnd {chain : List String} {f : Field} {fs : List Field} {t : RecordType}
      {found : Option (List String)} :
      f.isPlainComposite = true → f.type.name ≠ start → f.type.name ∉ chain →
      s.declared? f.type.name = some t → Searches s start (f.type.name :: chain) t.fields none →
      Searches s start chain fs found → Searches s start chain (f :: fs) found

/-- A search ends in one way only. -/
theorem Searches.unique {chain : List String} {fields : List Field}
    {found found' : Option (List String)} (h : s.Searches start chain fields found)
    (h' : s.Searches start chain fields found') : found' = found := by
  induction h generalizing found' with
  | exhausted =>
    cases h'
    rfl
  | other hf _ ih =>
    cases h' <;> first | exact ih ‹_› | simp_all
  | met hf hstart => cases h' <;> simp_all
  | onChain hf hstart hmem _ ih =>
    cases h' <;> first | exact ih ‹_› | simp_all
  | behind hf hstart hmem ht _ ih =>
    cases h' with
    | other => simp_all
    | met => simp_all
    | onChain => simp_all
    | behind _ _ _ ht' h' =>
      cases ht.symm.trans ht'
      exact ih h'
    | deadEnd _ _ _ ht' h' =>
      cases ht.symm.trans ht'
      cases ih h'
  | deadEnd hf hstart hmem ht _ _ ihin ih =>
    cases h' with
    | other => simp_all
    | met => simp_all
    | onChain => simp_all
    | behind _ _ _ ht' h' =>
      cases ht.symm.trans ht'
      cases ihin h'
    | deadEnd _ _ _ _ _ h' => exact ih h'

/-- The search through fields, given the searches through the types behind them. -/
theorem searches_findSome? {fuel : Nat} {chain : List String} {fields : List Field}
    (hdeclared : ∀ f ∈ fields, f.isPlainComposite = true → (s.declared? f.type.name).isSome = true)
    (hbehind : ∀ b t, s.declared? b = some t → b ∉ chain →
      s.Searches start (b :: chain) t.fields (s.chainBack? start fuel (b :: chain))) :
    s.Searches start chain fields (fields.findSome? (s.follow start fuel chain)) := by
  induction fields with
  | nil => exact .exhausted
  | cons f fs ih =>
    rw [List.forall_mem_cons] at hdeclared
    have hrest := ih hdeclared.2
    rw [List.findSome?_cons]
    cases hf : f.isPlainComposite with
    | false =>
      have hnone : s.follow start fuel chain f = none := by simp [follow, hf]
      rw [hnone]
      exact .other hf hrest
    | true =>
      by_cases hstart : f.type.name = start
      · have hmet : s.follow start fuel chain f = some (start :: chain) := by
          simp [follow, hf, hstart]
        rw [hmet]
        exact .met hf hstart
      · by_cases hmem : f.type.name ∈ chain
        · have hnone : s.follow start fuel chain f = none := by simp [follow, hf, hstart, hmem]
          rw [hnone]
          exact .onChain hf hstart hmem hrest
        · have hentered : s.follow start fuel chain f =
              s.chainBack? start fuel (f.type.name :: chain) := by
            simp [follow, hf, hstart, hmem]
          obtain ⟨t, ht⟩ := Option.isSome_iff_exists.mp (hdeclared.1 hf)
          have hinside := hbehind f.type.name t ht hmem
          rw [hentered]
          cases hfound : s.chainBack? start fuel (f.type.name :: chain) with
          | none =>
            rw [hfound] at hinside
            exact .deadEnd hf hstart hmem ht hinside hrest
          | some found =>
            rw [hfound] at hinside
            exact .behind hf hstart hmem ht hinside

/-- As many steps as there are types are as good as any number: what the bounded search finds is
what the search finds in the end. -/
theorem searches_chainBack? (hlinked : ∀ t ∈ s.types, ∀ f ∈ t.fields,
      f.type.kind.isComposite = true → (s.declared? f.type.name).isSome = true)
    {fuel : Nat} {chain : List String} {t : RecordType} (ht : s.declared? a = some t)
    (hnodup : (a :: chain).Nodup) (hnames : ∀ x ∈ chain, x ∈ s.types.map (·.name))
    (hfuel : s.types.length < fuel + (a :: chain).length) :
    s.Searches start (a :: chain) t.fields (s.chainBack? start fuel (a :: chain)) := by
  have hname : ∀ b u, s.declared? b = some u → b ∈ s.types.map (·.name) := by
    intro b u hu
    exact mem_names_of_isSome (by rw [hu]; rfl)
  induction fuel generalizing a chain t with
  | zero =>
    obtain ⟨k, hk⟩ := exists_fuel hnodup (List.forall_mem_cons.mpr ⟨hname a t ht, hnames⟩) hfuel
    cases hk
  | succ fuel ih =>
    rw [chainBack?_succ ht]
    apply searches_findSome?
    · intro f hf hplain
      exact hlinked t (mem_of_declared? ht) f hf (Field.isComposite_of_isPlainComposite hplain)
    · intro b u hu hfresh
      refine ih hu (List.nodup_cons.mpr ⟨hfresh, hnodup⟩) ?_ ?_
      · exact List.forall_mem_cons.mpr ⟨hname a t ht, hnames⟩
      · rw [List.length_cons]
        omega

/-- A way from the start to the last type of a chain that is kept newest first, on which no type
stands twice. -/
structure Trail (s : Schema) (start : String) (chain : List String) : Prop where
  steps : chain.IsChain fun b a => s.Contains a b
  distinct : chain.Nodup
  first : chain.getLast? = some start

theorem trail_singleton (s : Schema) (start : String) : s.Trail start [start] :=
  ⟨.singleton start, List.nodup_singleton start, rfl⟩

theorem Trail.cons {chain : List String} (h : s.Trail start chain) (ha : chain.head? = some a)
    (hab : s.Contains a b) (hb : b ∉ chain) : s.Trail start (b :: chain) := by
  cases chain with
  | nil => cases ha
  | cons x chain =>
    cases ha
    refine ⟨List.isChain_cons_cons.mpr ⟨hab, h.steps⟩, List.nodup_cons.mpr ⟨hb, h.distinct⟩, ?_⟩
    rw [List.getLast?_cons_cons]
    exact h.first

/-- What a search finds is a trail with the start in front of it, which its last type contains. -/
theorem Searches.trail {chain : List String} {fields : List Field} {found : Option (List String)}
    (h : s.Searches start chain fields found) (ha : chain.head? = some a)
    (hfields : ∀ f ∈ fields, f.isPlainComposite = true → s.Contains a f.type.name)
    (htrail : s.Trail start chain) :
    ∀ result, found = some result → ∃ last x, result = start :: last ∧ s.Trail start last ∧
      last.head? = some x ∧ s.Contains x start := by
  induction h generalizing a with
  | exhausted =>
    intro result hresult
    cases hresult
  | other _ _ ih =>
    exact ih ha (List.forall_mem_cons.mp hfields).2 htrail
  | met hf hstart =>
    intro result hresult
    cases hresult
    have hcontains := (List.forall_mem_cons.mp hfields).1 hf
    rw [hstart] at hcontains
    exact ⟨_, a, rfl, htrail, ha, hcontains⟩
  | onChain _ _ _ _ ih =>
    exact ih ha (List.forall_mem_cons.mp hfields).2 htrail
  | behind hf _ hfresh ht _ ih =>
    have hcontains := (List.forall_mem_cons.mp hfields).1 hf
    refine ih rfl ?_ (htrail.cons ha hcontains hfresh)
    intro g hg hplain
    exact ⟨_, ht, g, hg, hplain, rfl⟩
  | deadEnd _ _ _ _ _ _ _ ih =>
    exact ih ha (List.forall_mem_cons.mp hfields).2 htrail

/-- The chain that is found leads from the type back to it, and no type on the way stands there
twice. -/
theorem chain_of_searches {t : RecordType} {found : List String} (ht : s.declared? a = some t)
    (h : s.Searches a [a] t.fields (some found)) :
    ∃ others, found.reverse = a :: others ++ [a] ∧ (a :: others).Nodup ∧
      found.reverse.IsChain s.Contains := by
  have hfields : ∀ f ∈ t.fields, f.isPlainComposite = true → s.Contains a f.type.name :=
    fun f hf hplain => ⟨t, ht, f, hf, hplain, rfl⟩
  obtain ⟨last, x, rfl, htrail, hx, hcontains⟩ :=
    h.trail rfl hfields (trail_singleton s a) found rfl
  obtain ⟨others, rfl⟩ := List.getLast?_eq_some_iff.mp htrail.first
  refine ⟨others.reverse, by simp, ?_, ?_⟩
  · have hnodup := List.nodup_reverse.mpr htrail.distinct
    rwa [List.reverse_append] at hnodup
  · rw [List.isChain_reverse]
    cases hlast : others ++ [a] with
    | nil => simp at hlast
    | cons y last =>
      rw [hlast] at hx htrail
      cases hx
      exact List.isChain_cons_cons.mpr ⟨hcontains, htrail.steps⟩

/-- Once all fields can be laid out, what is wrong with a schema is its first type that contains
itself. -/
theorem fault?_of_placeable
    (hfields : ∀ t, t ∈ s.types ∨ t = s.root → ∀ f ∈ t.fields, s.Placeable f) :
    s.fault? = s.types.findSome? fun t =>
      (s.selfChain? t.name).map fun chain => ⟨typePath t.name, .containsItself chain⟩ := by
  have htypes :
      (s.types.findSome? fun t => s.fieldsFault? (typePath t.name) 0 t.fields) = none := by
    rw [List.findSome?_eq_none_iff]
    intro t ht
    exact (fieldsFault?_eq_none_iff 0).mpr (hfields t (.inl ht))
  have hroot : s.fieldsFault? "items" 0 s.root.fields = none :=
    (fieldsFault?_eq_none_iff 0).mpr (hfields s.root (.inr rfl))
  simp only [fault?, htypes, hroot]

theorem declared?_of_mem (hdistinct : (s.types.map (·.name)).Nodup) {t : RecordType}
    (ht : t ∈ s.types) : s.declared? t.name = some t := by
  have hsome : (s.declared? t.name).isSome = true := by
    rw [declared?, List.find?_isSome]
    exact ⟨t, ht, by simp⟩
  obtain ⟨u, hu⟩ := Option.isSome_iff_exists.mp hsome
  rw [hu, List.inj_on_of_nodup_map hdistinct (mem_of_declared? hu) ht (declared?_name hu)]

/-- A type that contains itself is one of the declared types. -/
theorem exists_type_of_transGen (h : Relation.TransGen s.Contains a b) :
    ∃ t ∈ s.types, t.name = a := by
  obtain ⟨c, ⟨t, ht, -⟩, -⟩ := Relation.TransGen.head'_iff.mp h
  exact ⟨t, mem_of_declared? ht, declared?_name ht⟩

theorem exists_containsItself_iff
    (hfields : ∀ t, t ∈ s.types ∨ t = s.root → ∀ f ∈ t.fields, s.Placeable f) :
    (∃ path chain, s.fault? = some ⟨path, .containsItself chain⟩) ↔
      ∃ a, Relation.TransGen s.Contains a a := by
  have hfault := fault?_of_placeable hfields
  constructor
  · rintro ⟨path, chain, h⟩
    rw [hfault] at h
    obtain ⟨t, -, h⟩ := List.exists_of_findSome?_eq_some h
    refine ⟨t.name, ?_⟩
    by_contra hnot
    rw [selfChain?_eq_none_iff.mpr hnot] at h
    cases h
  · rintro ⟨a, ha⟩
    obtain ⟨t, ht, rfl⟩ := exists_type_of_transGen ha
    have hsome : s.fault?.isSome = true := by
      rw [hfault, List.findSome?_isSome_iff]
      refine ⟨t, ht, ?_⟩
      rw [Option.isSome_map, Option.isSome_iff_ne_none]
      exact fun hnone => selfChain?_eq_none_iff.mp hnone ha
    obtain ⟨e, he⟩ := Option.isSome_iff_exists.mp hsome
    obtain ⟨u, -, hu⟩ := List.exists_of_findSome?_eq_some (hfault ▸ he)
    obtain ⟨chain, -, rfl⟩ := Option.map_eq_some_iff.mp hu
    exact ⟨_, _, he⟩

/-- The check for types that contain themselves is exact. Once all fields can be laid out, it
objects to a schema exactly if there is a cycle of types that contain each other. It names the first
type on a cycle, with a way from there back to it on which no other type stands twice. The search it
relies on ends, in one way, from whichever type it starts, also if it runs into cycles that do not
lead back there. -/
theorem fault?_selfContaining (hdistinct : (s.types.map (·.name)).Nodup)
    (hfields : ∀ t, t ∈ s.types ∨ t = s.root → ∀ f ∈ t.fields, s.Placeable f) :
    ((∃ path chain, s.fault? = some ⟨path, .containsItself chain⟩) ↔
      ∃ a, Relation.TransGen s.Contains a a) ∧
    (∀ path chain, s.fault? = some ⟨path, .containsItself chain⟩ →
      ∃ before t after others, s.types = before ++ t :: after ∧ path = typePath t.name ∧
        Relation.TransGen s.Contains t.name t.name ∧
        (∀ u ∈ before, ¬Relation.TransGen s.Contains u.name u.name) ∧
        chain = t.name :: others ++ [t.name] ∧ (t.name :: others).Nodup ∧
        chain.IsChain s.Contains) ∧
    ∀ t ∈ s.types, ∃ found, s.Searches t.name [t.name] t.fields found ∧
      (∀ other, s.Searches t.name [t.name] t.fields other → other = found) ∧
      s.selfChain? t.name = found.map List.reverse := by
  have hsearches : ∀ t ∈ s.types, s.Searches t.name [t.name] t.fields
      (s.chainBack? t.name (s.types.length + 1) [t.name]) := by
    intro t ht
    refine searches_chainBack? (fun u hu f hf => (hfields u (.inl hu) f hf).declared)
      (declared?_of_mem hdistinct ht) (List.nodup_singleton t.name) (by simp) ?_
    rw [List.length_singleton]
    omega
  refine ⟨exists_containsItself_iff hfields, ?_, ?_⟩
  · intro path chain h
    rw [fault?_of_placeable hfields] at h
    obtain ⟨before, t, after, htypes, ht, hbefore⟩ := List.findSome?_eq_some_iff.mp h
    have hmem : t ∈ s.types := by simp [htypes]
    obtain ⟨_, hchain, herror⟩ := Option.map_eq_some_iff.mp ht
    cases herror
    obtain ⟨found, hfound, rfl⟩ := Option.map_eq_some_iff.mp hchain
    have hfinds := hsearches t hmem
    rw [hfound] at hfinds
    obtain ⟨others, hothers, hnodup, hsteps⟩ :=
      chain_of_searches (declared?_of_mem hdistinct hmem) hfinds
    refine ⟨before, t, after, others, htypes, rfl, transGen_of_chainBack? hfound rfl, ?_, hothers,
      hnodup, hsteps⟩
    intro u hu
    exact selfChain?_eq_none_iff.mp (Option.map_eq_none_iff.mp (hbefore u hu))
  · intro t ht
    exact ⟨_, hsearches t ht, fun other h => (hsearches t ht).unique h, rfl⟩

/-- Two types contain each other, and a third one leads to them without being on their cycle. -/
theorem fault?_selfContaining_foreign_cycle :
    ∃ s : Schema, s = ⟨.little, [⟨"A", [⟨"b", ⟨"B", .composite⟩, none, none⟩]⟩,
        ⟨"B", [⟨"n", .ofPrimitive .u8, none, none⟩, ⟨"c", ⟨"C", .composite⟩, none, none⟩]⟩,
        ⟨"C", [⟨"b", ⟨"B", .composite⟩, none, none⟩]⟩], ⟨"root", []⟩⟩ ∧
      (s.types.map (·.name)).Nodup ∧
      (∀ t, t ∈ s.types ∨ t = s.root → ∀ f ∈ t.fields, s.Placeable f) ∧
      s.fault? = some ⟨"types.B", .containsItself ["B", "C", "B"]⟩ ∧
      (∃ a, Relation.TransGen s.Contains a a) ∧ ["B", "C", "B"].IsChain s.Contains ∧
      s.Searches "A" ["A"] [⟨"b", ⟨"B", .composite⟩, none, none⟩] none := by
  refine ⟨_, rfl, by decide, ?_⟩
  generalize hs : (⟨.little, [⟨"A", [⟨"b", ⟨"B", .composite⟩, none, none⟩]⟩,
    ⟨"B", [⟨"n", .ofPrimitive .u8, none, none⟩, ⟨"c", ⟨"C", .composite⟩, none, none⟩]⟩,
    ⟨"C", [⟨"b", ⟨"B", .composite⟩, none, none⟩]⟩], ⟨"root", []⟩⟩ : Schema) = s
  have hdistinct : (s.types.map (·.name)).Nodup := by
    subst hs
    decide
  have hall : (s.types ++ [s.root]).all (fun t =>
      t.fields.all fun f => (s.fieldFault? "" f).isNone) = true := by
    subst hs
    decide +kernel
  have hfields : ∀ t, t ∈ s.types ∨ t = s.root → ∀ f ∈ t.fields, s.Placeable f := by
    intro t ht f hf
    have hnone := List.all_eq_true.mp (List.all_eq_true.mp hall t (by simpa using ht)) f hf
    exact fieldFault?_eq_none_iff.mp (Option.isNone_iff_eq_none.mp hnone)
  have hfault : s.fault? = some ⟨"types.B", .containsItself ["B", "C", "B"]⟩ := by
    subst hs
    decide +kernel
  obtain ⟨hcycle, hchain, hends⟩ := fault?_selfContaining hdistinct hfields
  obtain ⟨_, _, _, _, -, -, -, -, -, -, hsteps⟩ := hchain _ _ hfault
  obtain ⟨found, hfound, -, hself⟩ := hends ⟨"A", [⟨"b", ⟨"B", .composite⟩, none, none⟩]⟩ (by
    subst hs
    exact List.mem_cons_self ..)
  have hnone : s.selfChain? "A" = none := by
    subst hs
    decide +kernel
  rw [hnone, eq_comm, Option.map_eq_none_iff] at hself
  rw [hself] at hfound
  exact ⟨hfields, hfault, hcycle.mp ⟨_, _, hfault⟩, hsteps, hfound⟩

end Schema

end Savefile
