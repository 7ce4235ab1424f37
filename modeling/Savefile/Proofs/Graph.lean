import Mathlib.Data.Finset.Card
import Mathlib.Logic.Relation

/-!
# Steps without a way back

In a finite graph only so many steps can be taken from which no way leads back: each of them leaves
a node behind for good. The nodes that are still ahead count such steps.
-/
namespace Savefile.Graph

open Relation

variable {α : Type} {nodes : Finset α} {R : α → α → Prop} {a b : α}

open Classical in
/-- The nodes that a node leads to without a way back. -/
noncomputable def ahead (nodes : Finset α) (R : α → α → Prop) (a : α) : Finset α :=
  nodes.filter fun b => TransGen R a b ∧ ¬TransGen R b a

theorem mem_ahead {x : α} :
    x ∈ ahead nodes R a ↔ x ∈ nodes ∧ TransGen R a x ∧ ¬TransGen R x a := by
  simp [ahead]

theorem not_mem_ahead_self : a ∉ ahead nodes R a := by
  intro hmem
  obtain ⟨-, hself, hnself⟩ := mem_ahead.mp hmem
  exact hnself hself

theorem ahead_subset (h : R a b) : ahead nodes R b ⊆ ahead nodes R a := by
  intro x hx
  rw [mem_ahead] at hx ⊢
  obtain ⟨hmem, hreach, hnot⟩ := hx
  exact ⟨hmem, .head h hreach, fun hback => hnot (hback.tail h)⟩

theorem card_ahead_le (h : R a b) : (ahead nodes R b).card ≤ (ahead nodes R a).card :=
  Finset.card_le_card (ahead_subset h)

/-- A step without a way back leaves a node behind. -/
theorem card_ahead_lt (h : R a b) (hb : b ∈ nodes) (hnot : ¬TransGen R b a) :
    (ahead nodes R b).card < (ahead nodes R a).card := by
  apply Finset.card_lt_card
  refine (Finset.ssubset_iff_of_subset (ahead_subset h)).mpr ⟨b, ?_, not_mem_ahead_self⟩
  exact mem_ahead.mpr ⟨hb, .single h, hnot⟩

theorem card_ahead_lt_card (ha : a ∈ nodes) : (ahead nodes R a).card < nodes.card := by
  apply Finset.card_lt_card
  refine (Finset.ssubset_iff_of_subset ?_).mpr ⟨a, ha, not_mem_ahead_self⟩
  intro x hx
  exact (mem_ahead.mp hx).1

end Savefile.Graph
