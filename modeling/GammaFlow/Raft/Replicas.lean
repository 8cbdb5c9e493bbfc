import GammaFlow.Lib.Consensus.Loyalty
import GammaFlow.Raft.Safety

/-!
# What a leader and its peers know of each other

Two numbers travel between a leader and a peer. `matchIndex` is what the leader
believes the peer has; it is set from replies that may arrive late, out of order and
after the peer has moved on. `leaderCommit` is what the peer may believe is decided; it
is capped by the end of the peer's own log and not by the end of what was checked.

Both are sound. An acknowledgement stays true while both sides are in the term
(`Consensus.Loyal`), and a request always reaches to the end of the sender's log, which
is never before the commit index it carries.
-/

namespace GammaFlow.Raft

open GammaFlow.Storage
open GammaFlow.Consensus (Loyal)

variable {ω : Type} [Journal ω] {cfg : Config ω} {w w' : Cluster ω}

/-- The abstract state behind a reachable one can be taken to be loyal. -/
theorem loyal_reachable (hw : Cluster.Reachable cfg w) : ∃ S, Sim cfg w S ∧ Loyal S := by
  obtain ⟨S, hrun, h⟩ := sim_run (sim_init cfg) hw
  exact ⟨S, h, Consensus.loyal_steps Consensus.inv_init Consensus.loyal_init hrun⟩

/--
**`matchIndex` is sound.** Let a leader count `m > 0` entries of a peer. Then the peer is
at least in the leader's term; if it is in that very term, its log has these `m` entries
and they are the leader's; and the leader's own log has them.
-/
theorem matchIndex_sound (hw : Cluster.Reachable cfg w) {A p : NodeID}
    (hl : (w.nodes A).state = .leader) (hp : p ∈ (w.nodes A).peers)
    (hm : 0 < (w.nodes A).matchIndex p) :
    (w.nodes A).currentTerm ≤ (w.nodes p).currentTerm ∧
    ((w.nodes p).currentTerm = (w.nodes A).currentTerm →
      (w.nodes A).matchIndex p ≤ (w.nodes p).log.lastIndex ∧
      ∀ k, 1 ≤ k → k ≤ (w.nodes A).matchIndex p →
        ∃ e, (w.nodes p).log.entries[k]? = some e ∧ (w.nodes A).log.entries[k]? = some e) ∧
    (w.nodes A).matchIndex p ≤ (w.nodes A).log.lastIndex := by
  obtain ⟨S, h, hloyal⟩ := loyal_reachable hw
  obtain ⟨b, hb⟩ := (h.nodes A).reign hl
  rw [RaftLog.lastIndex_eq, RaftLog.lastIndex_eq]
  rcases (h.nodes A).matched hl p hp with h0 | ⟨hlen, a, ha, hpre⟩
  · omega
  refine ⟨?_, ?_, hlen⟩
  · rw [← (h.nodes p).term]
    exact (h.inv.logs.sourced.ack ha).1
  intro hsame
  -- the leader is in its term, so the peer still has what it acknowledged
  have hheld := hloyal p _ _ ((w.nodes A).log.body.take ((w.nodes A).matchIndex p)) hb
    (h.nodes A).term (by rw [(h.nodes p).term]; exact hsame) ⟨a, ha, hpre⟩ (List.take_prefix _ _)
  rw [(h.nodes p).log] at hheld
  have hlen' := hheld.length_le
  rw [List.length_take, Nat.min_eq_left hlen] at hlen'
  refine ⟨hlen', ?_⟩
  intro k h1 hk
  have htake := List.prefix_iff_eq_take.mp hheld
  rw [List.length_take, Nat.min_eq_left hlen] at htake
  exact same_entry htake.symm hlen' h1 hk

/-- `b` counts the entry that `c` has acknowledged, and both are in term `1`. -/
theorem matchIndex_sound_abc : ∃ w, Cluster.Reachable volatileABC w ∧
    (w.nodes "b").matchIndex "c" = 1 ∧ (w.nodes "c").currentTerm = (w.nodes "b").currentTerm ∧
      ∃ e, (w.nodes "c").log.entries[1]? = some e ∧ (w.nodes "b").log.entries[1]? = some e := by
  obtain ⟨w, hw, h⟩ := Cluster.exists_run volatileABC (Cluster.init volatileABC)
    (replicateEvents ++ [.appendReply 0])
    (fun w => (w.nodes "b").state = .leader ∧ "c" ∈ (w.nodes "b").peers ∧
      (w.nodes "b").matchIndex "c" = 1 ∧
      (w.nodes "c").currentTerm = (w.nodes "b").currentTerm) (by decide +kernel)
  obtain ⟨hl, hp, hm, ht⟩ := h
  have hsound := (matchIndex_sound hw hl hp (by omega)).2.1 ht
  exact ⟨w, hw, hm, ht, hsound.2 1 le_rfl (by omega)⟩

/-- A request reaches at least as far as the commit index it carries, or is refused by everyone. -/
theorem leaderCommit_le (hw : Cluster.Reachable cfg w) {c : AppendCall} (hc : c ∈ w.appendCalls)
    {i : NodeID} (hcons : Node.consistent (w.nodes i).log c.args) :
    c.args.leaderCommit ≤ c.args.prevLogIndex + c.args.entries.length := by
  obtain ⟨S, h⟩ := sim_reachable hw
  rcases (h.appendCalls c hc).ships with ⟨L, hL, hships⟩ | hdud
  · have hle := (h.inv.commits.snap hL).le_length
    have hprev := hships.prev_le
    rw [hships.entries, List.length_drop]
    omega
  · exact absurd hcons (hdud.not_consistent h.inv (h.nodes i).held)

/--
**A follower commits nothing unchecked.** For every request in flight, whoever its sender
is by now: if its receiver answers with success, the receiver's commit index is at most
what it was or the last index that the request has checked.
-/
theorem commits_checked (hw : Cluster.Reachable cfg w) {c : AppendCall} (hc : c ∈ w.appendCalls)
    (hs : ((w.nodes c.peer).handleAppendEntries c.args).2.success = true) :
    ((w.nodes c.peer).handleAppendEntries c.args).1.commitIndex ≤
      max (w.nodes c.peer).commitIndex (c.args.prevLogIndex + c.args.entries.length) := by
  have hle := leaderCommit_le hw hc (Node.handleAppendEntries_success hs).2
  have hcommit := (w.nodes c.peer).handleAppendEntries_commit_le c.args
  omega

/-- After its commit, `b` sends `c` a heartbeat with commit index `1` and nothing to append. -/
theorem commits_checked_abc : ∃ w c, Cluster.Reachable volatileABC w ∧ c ∈ w.appendCalls ∧
    ((w.nodes c.peer).handleAppendEntries c.args).1.commitIndex = 1 ∧
      ((w.nodes c.peer).handleAppendEntries c.args).1.commitIndex ≤
        max (w.nodes c.peer).commitIndex (c.args.prevLogIndex + c.args.entries.length) := by
  obtain ⟨w, hw, h⟩ := Cluster.exists_run volatileABC (Cluster.init volatileABC)
    (replicateEvents ++ [.appendReply 0, .sendHeartbeats "b", .readHeartbeat 1])
    (fun w => ∃ c ∈ w.appendCalls,
      ((w.nodes c.peer).handleAppendEntries c.args).2.success = true ∧
      ((w.nodes c.peer).handleAppendEntries c.args).1.commitIndex = 1) (by decide +kernel)
  obtain ⟨c, hc, hsuccess, hcommit⟩ := h
  exact ⟨w, c, hw, hc, hcommit, commits_checked hw hc hsuccess⟩

end GammaFlow.Raft
