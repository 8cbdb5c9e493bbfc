import Mathlib.Data.Finset.Card
import Mathlib.Data.List.Nodup

/-!
# Quorum systems

The only two facts any agreement argument uses about "a majority": a superset of
a quorum is a quorum, and two quorums always meet. Everything in the consensus
layer is stated against these two laws, so nothing there ever counts nodes.

Counting happens once, here: `majority` shows that the majorities of a finite
membership form such a system.
-/

namespace GammaFlow

/-- A family of sets of nodes that is closed upwards and pairwise intersecting. -/
structure QuorumSystem (ν : Type) where
  /-- Which sets of nodes are large enough to decide. -/
  IsQuorum : Set ν → Prop
  /-- Adding nodes to a quorum leaves a quorum. -/
  mono : ∀ {s t : Set ν}, s ⊆ t → IsQuorum s → IsQuorum t
  /-- Two quorums share a node. -/
  inter : ∀ {s t : Set ν}, IsQuorum s → IsQuorum t → ∃ v, v ∈ s ∧ v ∈ t

namespace QuorumSystem

variable {ν : Type} [DecidableEq ν]

/-- Two duplicate-free lists drawn from `ids` that are each over half of it overlap. -/
theorem majorities_overlap {ids q₁ q₂ : List ν} (hn₁ : q₁.Nodup) (hn₂ : q₂.Nodup)
    (hs₁ : ∀ v ∈ q₁, v ∈ ids) (hs₂ : ∀ v ∈ q₂, v ∈ ids)
    (hc₁ : ids.length < 2 * q₁.length) (hc₂ : ids.length < 2 * q₂.length) :
    ∃ v, v ∈ q₁ ∧ v ∈ q₂ := by
  by_contra hno
  have hdisj : Disjoint q₁.toFinset q₂.toFinset := by
    rw [Finset.disjoint_left]
    intro v h₁ h₂
    exact hno ⟨v, List.mem_toFinset.mp h₁, List.mem_toFinset.mp h₂⟩
  have hsub : q₁.toFinset ∪ q₂.toFinset ⊆ ids.toFinset := by
    intro v hv
    rcases Finset.mem_union.mp hv with h | h
    · exact List.mem_toFinset.mpr (hs₁ v (List.mem_toFinset.mp h))
    · exact List.mem_toFinset.mpr (hs₂ v (List.mem_toFinset.mp h))
  have hcard := Finset.card_le_card hsub
  rw [Finset.card_union_of_disjoint hdisj, List.toFinset_card_of_nodup hn₁,
    List.toFinset_card_of_nodup hn₂] at hcard
  have := List.toFinset_card_le ids
  omega

/-- The strict majorities of a finite membership. -/
def majority (ids : List ν) : QuorumSystem ν where
  IsQuorum s := ∃ q : List ν, q.Nodup ∧ (∀ v ∈ q, v ∈ ids) ∧ (∀ v ∈ q, v ∈ s) ∧
    ids.length < 2 * q.length
  mono := by
    rintro s t hst ⟨q, hn, hids, hs, hc⟩
    exact ⟨q, hn, hids, fun v hv => hst (hs v hv), hc⟩
  inter := by
    rintro s t ⟨q₁, hn₁, hids₁, hs₁, hc₁⟩ ⟨q₂, hn₂, hids₂, hs₂, hc₂⟩
    obtain ⟨v, h₁, h₂⟩ := majorities_overlap hn₁ hn₂ hids₁ hids₂ hc₁ hc₂
    exact ⟨v, hs₁ v h₁, hs₂ v h₂⟩

end QuorumSystem

end GammaFlow
