import GammaFlow.Raft.Cluster
import GammaFlow.Raft.Merge

/-!
# Requests delivered twice and out of order

Two requests of one term carry the leader's log to its end at two moments, from
wherever `nextIndex` stood. The network may deliver the first one after the second,
and either of them twice.

A request that is accepted grafts the log it carries (`body_merge_of_consistent`) and
raises the commit index to the one it carries, which is not beyond that log. Grafts of
a log and of a part of it commute, and so do maxima.
-/

namespace GammaFlow.Raft

open GammaFlow.Storage
open GammaFlow.Consensus (graft graft_cases graft_eq_right prefix_graft_self graft_after_part
  graft_part_after)
open RaftLog

variable {ω : Type} [Journal ω]

namespace Node

/-- The node after it has handled a request. -/
def received (n : Node ω) (r : AppendEntriesArgs) : Node ω := (n.handleAppendEntries r).1

/-- The request is answered with success. -/
def Accepts (n : Node ω) (r : AppendEntriesArgs) : Prop :=
  (n.handleAppendEntries r).2.success = true

end Node

/--
`r` and `r'` are requests of one leader. The first carries the end of its log `L`, the
second the end of its log `L'`, which has grown; neither has a commit index beyond.
-/
structure Sequel (L L' : List LogEntry) (r r' : AppendEntriesArgs) : Prop where
  term : r.term = r'.term
  grows : L <+: L'
  older : Ships L r
  newer : Ships L' r'
  older_commit : r.leaderCommit ≤ r.prevLogIndex + r.entries.length
  newer_commit : r'.leaderCommit ≤ r'.prevLogIndex + r'.entries.length

variable {n : Node ω} {r r' : AppendEntriesArgs} {L L' : List LogEntry}

theorem Ships.length (h : Ships L r) : r.prevLogIndex + r.entries.length = L.length := by
  have := h.prev_le
  rw [h.entries, List.length_drop]
  omega

/-- Whoever has all of the log passes the check. -/
theorem Ships.consistent (h : Ships L r) {log : RaftLog} (hL : L <+: log.body) :
    Node.consistent log r := by
  have hle := h.prev_le
  refine Or.inr ⟨hle.trans hL.length_le, ?_⟩
  rw [termAt_eq, h.prev_term]
  exact (termIn_eq_of_le hL hle).symm

theorem prefix_matching (h : L <+: L') : Matching L L' := by
  intro k _ hk _ _
  obtain ⟨R, rfl⟩ := h
  rw [List.take_append_of_le_length hk]

theorem Matching.part {m : List LogEntry} (h : Matching m L') (hL : L <+: L') : Matching m L := by
  intro k h1 hm hk ht
  rw [termIn_eq_of_le hL hk] at ht
  rw [h k h1 hm (hk.trans hL.length_le) ht]
  exact (prefix_matching hL k h1 hk (hk.trans hL.length_le) (termIn_eq_of_le hL hk)).symm

/-- A graft of a part of `L'` matches `L'` where the log did. -/
theorem Matching.graft {m : List LogEntry} (h : Matching m L') (hL : L <+: L') :
    Matching (graft L m) L' := by
  rcases graft_cases L m with hg | hg
  · rw [hg]; exact h
  · rw [hg]; exact prefix_matching hL

namespace Node

/-- **What an accepted request does.** -/
theorem received_of_accepts (hs : n.Accepts r) (h : Ships L r)
    (hc : r.leaderCommit ≤ r.prevLogIndex + r.entries.length) (hm : Matching n.log.body L) :
    (n.received r).log.body = graft L n.log.body ∧
      (n.received r).commitIndex = max n.commitIndex r.leaderCommit ∧
      (n.received r).currentTerm = r.term ∧
      (n.received r).votedFor = if r.term > n.currentTerm then "" else n.votedFor := by
  obtain ⟨ht, hcons⟩ := handleAppendEntries_success hs
  have hbody := body_merge_of_consistent hm h hcons
  have hlast : r.leaderCommit ≤ (mergeLog n.log (r.prevLogIndex + 1) r.entries).lastIndex := by
    rw [lastIndex_eq, hbody]
    have := (prefix_graft_self L n.log.body).length_le
    rw [h.length] at hc
    omega
  unfold received
  have hh := n.appendHandled r
  generalize (n.handleAppendEntries r).1 = n' at hh ⊢
  generalize (n.handleAppendEntries r).2 = reply at hh
  cases hh with
  | stale hlt => omega
  | refused _ _ _ _ _ hno => exact absurd hcons hno
  | accepted _ _ _ _ _ _ =>
      refine ⟨hbody, ?_, rfl, rfl⟩
      dsimp only
      unfold toldCommit
      split <;> omega

/-- A request that is not accepted is not heard of, or is only heard. -/
theorem received_of_not_accepts (hs : ¬ n.Accepts r) :
    (r.term < n.currentTerm ∧ n.received r = n) ∨
    (n.currentTerm ≤ r.term ∧ ¬ consistent n.log r ∧ (n.received r).log = n.log ∧
      (n.received r).commitIndex = n.commitIndex ∧ (n.received r).currentTerm = r.term ∧
      (n.received r).votedFor = if r.term > n.currentTerm then "" else n.votedFor) := by
  unfold received
  unfold Accepts at hs
  have hh := n.appendHandled r
  generalize (n.handleAppendEntries r).1 = n' at hh ⊢
  generalize (n.handleAppendEntries r).2 = reply at hh hs
  cases hh with
  | stale hlt => exact Or.inl ⟨hlt, rfl⟩
  | refused _ _ _ _ ht hno => exact Or.inr ⟨ht, hno, rfl, rfl, rfl, rfl⟩
  | accepted _ _ _ _ _ _ => exact absurd rfl hs

theorem accepts_of_consistent (ht : n.currentTerm ≤ r.term) (hc : consistent n.log r) :
    n.Accepts r := by
  unfold Accepts
  rw [(handleAppendEntries_accepts ht hc).1]

/-- **Once is enough.** -/
theorem received_twice (h : Ships L r)
    (hc : r.leaderCommit ≤ r.prevLogIndex + r.entries.length) (hm : Matching n.log.body L) :
    ((n.received r).received r).log = (n.received r).log ∧
      ((n.received r).received r).commitIndex = (n.received r).commitIndex ∧
      ((n.received r).received r).currentTerm = (n.received r).currentTerm ∧
      ((n.received r).received r).votedFor = (n.received r).votedFor := by
  by_cases hs : n.Accepts r
  · -- the second time the log is all there
    obtain ⟨hlog, hcommit, hterm, _⟩ := received_of_accepts hs h hc hm
    have hagain : (n.received r).Accepts r := by
      refine accepts_of_consistent hterm.le (h.consistent ?_)
      rw [hlog]; exact prefix_graft_self L _
    obtain ⟨hlog', hcommit', hterm', hvote'⟩ := received_of_accepts hagain h hc
      (by rw [hlog]; exact hm.graft List.prefix_rfl)
    refine ⟨ext_body ?_, ?_, hterm'.trans hterm.symm, ?_⟩
    · rw [hlog', hlog, graft_part_after List.prefix_rfl]
    · rw [hcommit', hcommit]; omega
    · rw [hvote', if_neg (by omega)]
  · rcases received_of_not_accepts hs with ⟨_, hsame⟩ | ⟨_, hno, hlog, hcommit, hterm, _⟩
    · rw [hsame, hsame]; exact ⟨rfl, rfl, rfl, rfl⟩
    · -- the same log is refused again
      have hagain : ¬ (n.received r).Accepts r := by
        intro hyes
        have := (handleAppendEntries_success hyes).2
        rw [hlog] at this
        exact hno this
      rcases received_of_not_accepts hagain with ⟨hlt, _⟩ | ⟨_, _, hlog', hcommit', hterm', hvote'⟩
      · omega
      · refine ⟨hlog', hcommit', hterm'.trans hterm.symm, ?_⟩
        rw [hvote', if_neg (by omega)]

end Node

/--
**Duplicated and reordered requests.** Let `r` and `r'` be requests of one term that carry
the leader's log at an earlier and at a later moment, for a follower whose log matches the
leader's. To handle either of them twice is to handle it once. If both are accepted in both
orders, log and commit index end up the same. If the older one is accepted after the newer
one was, it changes nothing in the log.
-/
theorem redelivery (h : Sequel L L' r r') (hm : Matching n.log.body L') :
    (∀ q, q = r ∨ q = r' →
      ((n.received q).received q).log = (n.received q).log ∧
      ((n.received q).received q).commitIndex = (n.received q).commitIndex ∧
      ((n.received q).received q).currentTerm = (n.received q).currentTerm ∧
      ((n.received q).received q).votedFor = (n.received q).votedFor) ∧
    (n.Accepts r → (n.received r).Accepts r' → n.Accepts r' → (n.received r').Accepts r →
      ((n.received r).received r').log = ((n.received r').received r).log ∧
      ((n.received r).received r').commitIndex = ((n.received r').received r).commitIndex) ∧
    (n.Accepts r' → (n.received r').Accepts r →
      ((n.received r').received r).log = (n.received r').log) := by
  have hpart := hm.part h.grows
  -- the newer request first
  have hback : n.Accepts r' → (n.received r').Accepts r →
      ((n.received r').received r).log.body = graft L' n.log.body ∧
      (n.received r').log.body = graft L' n.log.body ∧
      ((n.received r').received r).commitIndex =
        max (max n.commitIndex r'.leaderCommit) r.leaderCommit := by
    intro hs' hs
    obtain ⟨hlog', hcommit', _⟩ := Node.received_of_accepts hs' h.newer h.newer_commit hm
    have hm' : Matching (n.received r').log.body L := by
      rw [hlog']; exact (hm.graft List.prefix_rfl).part h.grows
    obtain ⟨hlog, hcommit, _⟩ := Node.received_of_accepts hs h.older h.older_commit hm'
    refine ⟨?_, hlog', by rw [hcommit, hcommit']⟩
    rw [hlog, hlog', graft_part_after h.grows]
  refine ⟨?_, ?_, ?_⟩
  · rintro q (rfl | rfl)
    · exact Node.received_twice h.older h.older_commit hpart
    · exact Node.received_twice h.newer h.newer_commit hm
  · intro hr hr' hs' hs
    obtain ⟨hlog, hcommit, _⟩ := Node.received_of_accepts hr h.older h.older_commit hpart
    have hm' : Matching (n.received r).log.body L' := by
      rw [hlog]; exact hm.graft h.grows
    obtain ⟨hlog', hcommit', _⟩ := Node.received_of_accepts hr' h.newer h.newer_commit hm'
    obtain ⟨hblog, _, hbcommit⟩ := hback hs' hs
    refine ⟨ext_body ?_, ?_⟩
    · rw [hlog', hlog, hblog, graft_after_part h.grows]
    · rw [hcommit', hcommit, hbcommit]; omega
  · intro hs' hs
    obtain ⟨hlog, hlog', _⟩ := hback hs' hs
    exact ext_body (hlog.trans hlog'.symm)

/-- A leader's log of terms `1` and `2`, from its beginning. -/
def fromStart : AppendEntriesArgs := ⟨2, "b", 0, 0, [⟨1, 1, []⟩, ⟨2, 2, []⟩], 1⟩

/-- The same log after one more command, from the second entry on. -/
def fromSecond : AppendEntriesArgs := ⟨2, "b", 1, 1, [⟨2, 2, []⟩, ⟨2, 3, [7]⟩], 2⟩

theorem sequel_fromStart : Sequel [⟨1, 1, []⟩, ⟨2, 2, []⟩] [⟨1, 1, []⟩, ⟨2, 2, []⟩, ⟨2, 3, [7]⟩]
    fromStart fromSecond where
  term := rfl
  grows := ⟨[⟨2, 3, [7]⟩], rfl⟩
  older := ⟨by decide, rfl, rfl⟩
  newer := ⟨by decide, rfl, rfl⟩
  older_commit := by decide
  newer_commit := by decide

/-- A follower that has the first entry, and another one where the leader has its second. -/
def astray : Node OneFile :=
  { Node.newNode "a" ["b", "c"] none with
    currentTerm := 1, log := ofBody [⟨1, 1, []⟩, ⟨1, 2, [5]⟩] }

theorem matching_astray :
    Matching astray.log.body [⟨1, 1, []⟩, ⟨2, 2, []⟩, ⟨2, 3, [7]⟩] := by
  intro k h1 hk _ ht
  have hlen : astray.log.body.length = 2 := rfl
  obtain rfl | rfl : k = 1 ∨ k = 2 := by omega
  · rfl
  · exact absurd ht (by decide)

/-- The two requests in either order, at a follower that has to drop an entry for them. -/
theorem redelivery_astray :
    ((astray.received fromStart).received fromSecond).log =
        ((astray.received fromSecond).received fromStart).log ∧
      ((astray.received fromStart).received fromSecond).commitIndex =
        ((astray.received fromSecond).received fromStart).commitIndex :=
  (redelivery sequel_fromStart matching_astray).2.1 rfl rfl rfl rfl

/-- The end of the grown log, with nothing to append. -/
def atEnd : AppendEntriesArgs := ⟨2, "b", 3, 2, [], 2⟩

theorem sequel_atEnd : Sequel [⟨1, 1, []⟩, ⟨2, 2, []⟩] [⟨1, 1, []⟩, ⟨2, 2, []⟩, ⟨2, 3, [7]⟩]
    fromStart atEnd where
  term := rfl
  grows := ⟨[⟨2, 3, [7]⟩], rfl⟩
  older := sequel_fromStart.older
  newer := ⟨by decide, rfl, rfl⟩
  older_commit := by decide
  newer_commit := by decide

/--
A newer request that was refused is no protection: the older one, accepted after it,
removes the entry that the leader's log does not have.
-/
theorem refused_then_older :
    Sequel [⟨1, 1, []⟩, ⟨2, 2, []⟩] [⟨1, 1, []⟩, ⟨2, 2, []⟩, ⟨2, 3, [7]⟩] fromStart atEnd ∧
    Matching astray.log.body [⟨1, 1, []⟩, ⟨2, 2, []⟩, ⟨2, 3, [7]⟩] ∧
    (astray.received atEnd).Accepts fromStart ∧
    (astray.received atEnd).log.body = [⟨1, 1, []⟩, ⟨1, 2, [5]⟩] ∧
    ((astray.received atEnd).received fromStart).log.body = [⟨1, 1, []⟩, ⟨2, 2, []⟩] :=
  ⟨sequel_atEnd, matching_astray, rfl, rfl, rfl⟩

end GammaFlow.Raft
