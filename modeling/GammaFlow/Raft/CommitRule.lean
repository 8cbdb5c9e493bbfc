import Mathlib.Order.Bounds.Basic
import GammaFlow.Lib.OrderStatistic
import GammaFlow.Raft.Replicas

/-!
# The commit rule

The rule, as the comment on `advanceCommitIndexLocked` has it: the highest `N` beyond
the commit index that a majority has and that is of the leader's own term. The code
does not look for such an `N`. It sorts what everybody has, reads one element, and
tests the term there.

The element read is the highest index that a majority has. If the term there is not
the leader's own it is an earlier one, and so are all terms below, so no smaller index
would do either.
-/

namespace GammaFlow.Raft

open GammaFlow.Storage
open RaftLog

variable {ω : Type}

namespace Node

/-- How many nodes have the log up to `N`, as far as this leader knows, itself included. -/
def replicas (n : Node ω) (N : Nat) : Nat :=
  (n.log.lastIndex :: n.peers.map n.matchIndex).countP (N ≤ ·)

/-- What the rule asks of an index. -/
structure Committable (n : Node ω) (N : Nat) : Prop where
  beyond : n.commitIndex < N
  own : ∃ e, n.log.entries[N]? = some e ∧ e.term = n.currentTerm
  majority : n.peers.length + 1 < 2 * n.replicas N

/-- What the rule relies on: peers have no more than the leader, and terms are in order. -/
structure InOrder (n : Node ω) : Prop where
  matched : ∀ p ∈ n.peers, n.matchIndex p ≤ n.log.lastIndex
  rising : n.log.body.Pairwise fun a b => a.term ≤ b.term
  current : ∀ e ∈ n.log.body, e.term ≤ n.currentTerm

/-- **The element that the code reads is the highest index that a majority has.** -/
theorem exists_candidateCommit (n : Node ω) : ∃ c,
    c ∈ n.log.lastIndex :: n.peers.map n.matchIndex ∧
    (∀ N, N ≤ c ↔ n.peers.length + 1 < 2 * n.replicas N) ∧
    n.advanceCommitIndexLocked =
      if c > n.commitIndex ∧ n.log.contains c ∧ n.log.termAt c = n.currentTerm then
        { n with commitIndex := c }
      else n := by
  have hlen : ((n.log.lastIndex :: n.peers.map n.matchIndex).insertionSort (· ≥ ·)).length
      = n.peers.length + 1 := by
    rw [List.length_insertionSort, List.length_cons, List.length_map]
  have hlt : (n.peers.length + 1) / 2 <
      ((n.log.lastIndex :: n.peers.map n.matchIndex).insertionSort (· ≥ ·)).length := by
    rw [hlen]; omega
  refine ⟨_, (List.mem_insertionSort (· ≥ ·)).mp (List.getElem_mem hlt), ?_, ?_⟩
  · intro N
    rw [le_getElem_insertionSort_iff _ hlt]
    unfold replicas
    omega
  · unfold advanceCommitIndexLocked
    dsimp only
    rw [List.getElem?_eq_getElem hlt]

/-- The test that the code makes is the rule, for the index that it makes it for. -/
theorem committable_iff {n : Node ω} {c : Nat} (hmaj : n.peers.length + 1 < 2 * n.replicas c) :
    n.Committable c ↔
      c > n.commitIndex ∧ n.log.contains c ∧ n.log.termAt c = n.currentTerm := by
  constructor
  · rintro ⟨hc, ⟨e, he, ht⟩, _⟩
    have hin : n.log.contains c = true := by
      rw [contains, decide_eq_true_iff]
      exact (List.getElem?_eq_some_iff.mp he).1
    refine ⟨hc, hin, ?_⟩
    rw [termAt, if_pos hin, he]
    exact ht
  · rintro ⟨hc, hin, ht⟩
    have hlt : c < n.log.entries.length := by
      rw [contains, decide_eq_true_iff] at hin
      exact hin
    refine ⟨hc, ⟨_, List.getElem?_eq_getElem hlt, ?_⟩, hmaj⟩
    rw [termAt, if_pos hin, List.getElem?_eq_getElem hlt] at ht
    exact ht

/-- If any index will do, then the highest one that a majority has. -/
theorem Committable.rise {n : Node ω} {N c : Nat} (h : n.Committable N) (hNc : N ≤ c)
    (hc : c ≤ n.log.lastIndex) (hmaj : n.peers.length + 1 < 2 * n.replicas c) (ho : n.InOrder) :
    n.Committable c := by
  obtain ⟨hbeyond, _, hterm⟩ := (committable_iff h.majority).mp h
  rw [lastIndex_eq] at hc
  rw [committable_iff hmaj, contains_iff]
  refine ⟨by omega, hc, ?_⟩
  obtain ⟨P, e, hP, _, _, _, hte⟩ := exists_at (L := n.log.body) (by omega) hc
  have hup := termIn_mono ho.rising (by omega) hNc hc
  have hown := ho.current e (hP.subset (by simp))
  rw [termAt_eq] at hterm ⊢
  omega

/--
**The commit rule computes its specification.** For a log whose terms do not fall and do
not exceed the leader's, and peers that have no more than the leader: if some index meets
the rule, the commit index becomes the largest that does; if none does, nothing changes.
-/
theorem advanceCommitIndexLocked_spec {n : Node ω} (ho : n.InOrder) :
    ((∃ N, n.Committable N) → ∃ N, IsGreatest {N | n.Committable N} N ∧
      n.advanceCommitIndexLocked = { n with commitIndex := N }) ∧
    ((¬ ∃ N, n.Committable N) → n.advanceCommitIndexLocked = n) := by
  obtain ⟨c, hc, hcount, hadvance⟩ := n.exists_candidateCommit
  have hmaj := (hcount c).mp le_rfl
  have hlast : c ≤ n.log.lastIndex := by
    rcases List.mem_cons.mp hc with rfl | hc
    · exact le_rfl
    · obtain ⟨p, hp, rfl⟩ := List.mem_map.mp hc
      exact ho.matched p hp
  constructor
  · rintro ⟨N, hN⟩
    have hcom := hN.rise ((hcount N).mpr hN.majority) hlast hmaj ho
    refine ⟨c, ⟨hcom, fun M hM => (hcount M).mpr hM.majority⟩, ?_⟩
    rw [hadvance, if_pos ((committable_iff hmaj).mp hcom)]
  · intro hnone
    rw [hadvance, if_neg]
    intro hguard
    exact hnone ⟨c, (committable_iff hmaj).mpr hguard⟩

/-- A leader of five with three entries: the middle one of `3, 3, 2, 1, 0` is of its term. -/
def middling : Node OneFile where
  id := "a"
  peers := ["b", "c", "d", "e"]
  currentTerm := 2
  votedFor := "a"
  log := ofBody [⟨1, 1, []⟩, ⟨2, 2, []⟩, ⟨2, 3, []⟩]
  state := .leader
  commitIndex := 1
  lastApplied := 0
  leaderID := "a"
  nextIndex := fun _ => 4
  matchIndex := fun p => if p = "b" then 3 else if p = "c" then 2 else if p = "d" then 1 else 0
  votes := 3
  votesReceived := ["a", "b", "c"]
  wal := none
  rt := Runtime.empty

theorem advanceCommitIndexLocked_middling : ∃ N, IsGreatest {N | middling.Committable N} N ∧
    middling.advanceCommitIndexLocked = { middling with commitIndex := N } :=
  (advanceCommitIndexLocked_spec ⟨by decide, by decide, by decide⟩).1
    ⟨2, by decide, ⟨_, rfl, rfl⟩, by decide⟩

end Node

/-- Every leader of a cluster may rely on it. -/
theorem inOrder_reachable [Journal ω] {cfg : Config ω} {w : Cluster ω}
    (hw : Cluster.Reachable cfg w) {A : NodeID} (hl : (w.nodes A).state = .leader) :
    (w.nodes A).InOrder where
  matched p hp := by
    obtain ⟨S, h⟩ := sim_reachable hw
    rw [lastIndex_eq]
    rcases (h.nodes A).matched hl p hp with h0 | ⟨hle, _⟩
    · omega
    · exact hle
  rising := pairwise_term hw A
  current e he := by
    obtain ⟨k, hk⟩ := List.mem_iff_getElem?.mp he
    refine leader_entry_term hw hl (k := k + 1) ?_
    rw [getElem?_entries _ (by omega)]
    exact hk

end GammaFlow.Raft
