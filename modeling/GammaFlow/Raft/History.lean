import GammaFlow.Lib.ReplicatedMachine
import GammaFlow.Raft.Clients

/-!
# The committed history

What the nodes have committed are parts of one and the same list, so the longest of
them is what the cluster has committed: its history. No step takes anything from it or
changes it in the middle.

Every acknowledged write stands in the history at the index that was returned for it,
and the order is that of real time: what is acknowledged before a call is made comes
before what the call writes (`acknowledged_in_order`). The call may well have been made
to a node that was deposed without hearing of it, with a shorter log.
-/

namespace GammaFlow.Raft

open GammaFlow.Storage
open GammaFlow.ReplicatedMachine (longest longest_cases length_le_longest prefix_longest)

variable {ω : Type}

/-- What node `i` has committed. -/
def Cluster.decided (w : Cluster ω) (i : NodeID) : List LogEntry :=
  (w.nodes i).log.body.take (w.nodes i).commitIndex

/-- What the cluster has committed: the longest of what its members have. -/
def Cluster.history (cfg : Config ω) (w : Cluster ω) : List LogEntry :=
  longest (cfg.ids.map w.decided)

variable [Journal ω] {cfg : Config ω} {w w' : Cluster ω}

/-! ## Nodes outside the cluster -/

/-- No section ever runs on a node that is not a member. -/
theorem outsider_reachable (hw : Cluster.Reachable cfg w) {i : NodeID} (hi : i ∉ cfg.ids) :
    w.nodes i = (Cluster.init cfg).nodes i ∧ w.applying i = none := by
  refine Execution.Run.invariant hw ⟨rfl, rfl⟩ ?_
  rintro w₁ ev w₂ hr ⟨hn, hidle⟩ hs
  obtain ⟨S, hS⟩ := sim_reachable hr
  have hpeer : ∀ {j p : NodeID}, j ∈ cfg.ids → p ∈ cfg.peers j → p ≠ i := by
    intro j p hj hp heq
    exact hi (heq ▸ (cfg.mem_peers hj hp).1)
  refine ⟨?_, ?_⟩
  · rw [← hn]
    rcases act_nodes hs i with heq | hst
    · exact heq
    · generalize w₂.nodes i = n' at hst ⊢
      cases hst with
      | startElection hmem => exact absurd hmem hi
      | requestVote k c hc hp =>
          have hok := hS.voteCalls c (List.mem_of_getElem? hc)
          exact absurd hp (hpeer hok.caller hok.peer)
      | voteReply k c r hc hp =>
          have hok := (hS.voteReplies _ (List.mem_of_getElem? hc)).call
          exact absurd (hp ▸ hok.caller) hi
      | appendEntries k c hc hp =>
          have hok := hS.appendCalls c (List.mem_of_getElem? hc)
          exact absurd hp (hpeer hok.caller hok.peer)
      | appendReply k c r hc hp =>
          have hok := (hS.appendReplies _ (List.mem_of_getElem? hc)).call
          exact absurd (hp ▸ hok.caller) hi
      | submitCommand command hmem => exact absurd hmem hi
      | finishApply m hm => rw [hidle] at hm; exact absurd hm (by simp)
  · rcases act_applyCh hs i with ⟨_, htask, _⟩ | ⟨task, _, hcollect, _⟩ | ⟨_, _, _, hbusy, _⟩ |
      ⟨_, hbusy, _⟩
    · rw [htask]; exact hidle
    · -- nothing is committed here, so there is nothing to collect
      rw [hn] at hcollect
      exact absurd hcollect (by simp [Node.collectApply, Cluster.init, Node.newNode, Node.start])
    · rw [hidle] at hbusy; exact absurd hbusy (by simp)
    · rw [hidle] at hbusy; exact absurd hbusy (by simp)

/-! ## One history -/

/-- What two nodes have committed, one of them perhaps later, is part of one list. -/
theorem decided_comparable (hw : Cluster.Reachable cfg w) (hr : Cluster.Run cfg w w')
    (i j : NodeID) : w.decided i <+: w'.decided j ∨ w'.decided j <+: w.decided i := by
  unfold Cluster.decided
  rcases Nat.le_total (w.nodes i).commitIndex (w'.nodes j).commitIndex with hle | hle
  · obtain ⟨heq, _⟩ := committed_agree hw hr (Nat.le_refl _) hle
    rw [heq]
    exact Or.inl (List.take_prefix_take_left hle)
  · obtain ⟨heq, _⟩ := committed_agree hw hr hle (Nat.le_refl _)
    rw [← heq]
    exact Or.inr (List.take_prefix_take_left hle)

/-- Every node has committed a first part of the history. -/
theorem decided_part (hw : Cluster.Reachable cfg w) (i : NodeID) :
    w.decided i <+: w.history cfg := by
  by_cases hi : i ∈ cfg.ids
  · refine prefix_longest ?_ (List.mem_map_of_mem hi)
    intro a ha b hb
    obtain ⟨j, _, rfl⟩ := List.mem_map.mp ha
    obtain ⟨k, _, rfl⟩ := List.mem_map.mp hb
    exact decided_comparable hw Relation.ReflTransGen.refl j k
  · have hnil : w.decided i = [] := by
      unfold Cluster.decided
      rw [(outsider_reachable hw hi).1]
      rfl
    rw [hnil]
    exact List.nil_prefix

theorem length_decided (hw : Cluster.Reachable cfg w) (i : NodeID) :
    (w.decided i).length = (w.nodes i).commitIndex := by
  unfold Cluster.decided
  rw [List.length_take, Nat.min_eq_left (commitIndex_le hw i)]

theorem commitIndex_le_history (hw : Cluster.Reachable cfg w) (i : NodeID) :
    (w.nodes i).commitIndex ≤ (w.history cfg).length := by
  rw [← length_decided hw i]
  exact (decided_part hw i).length_le

/-- **The history only grows at its end.** -/
theorem history_mono (hw : Cluster.Reachable cfg w) (hr : Cluster.Run cfg w w') :
    w.history cfg <+: w'.history cfg := by
  rcases longest_cases (cfg.ids.map w.decided) with hnil | hmem
  · unfold Cluster.history
    rw [hnil]
    exact List.nil_prefix
  · obtain ⟨i, _, hi⟩ := List.mem_map.mp hmem
    have hkept : w.decided i <+: w'.decided i := by
      have hmono := commitIndex_mono hw hr i
      obtain ⟨heq, _⟩ := committed_agree hw hr (Nat.le_refl _) hmono
      unfold Cluster.decided
      rw [heq]
      exact List.take_prefix_take_left hmono
    unfold Cluster.history at *
    rw [← hi]
    exact hkept.trans (decided_part (hw.trans hr) i)

/-- Up to its commit index, a node's log is the history. -/
theorem history_take (hw : Cluster.Reachable cfg w) {i : NodeID} {k : Nat}
    (hk : k ≤ (w.nodes i).commitIndex) :
    (w.history cfg).take k = (w.nodes i).log.body.take k := by
  obtain ⟨rest, hrest⟩ := decided_part hw i
  rw [← hrest, List.take_append_of_le_length (by rw [length_decided hw]; exact hk)]
  unfold Cluster.decided
  rw [List.take_take, Nat.min_eq_left hk]

/-! ## Acknowledged writes in the history -/

theorem Cluster.Acked.in_history (hw : Cluster.Reachable cfg w) {k : Nat} {s : Submit}
    (h : w.Acked k s) : 1 ≤ s.index ∧ (w.history cfg)[s.index - 1]? = some s.entry := by
  obtain ⟨hpos, hcommit, _, hholds⟩ := h.committed hw
  refine ⟨hpos, ?_⟩
  have hentry := hholds s.node hcommit
  rw [RaftLog.getElem?_entries _ hpos, ← List.getElem?_take_of_lt (by omega : s.index - 1 < s.index),
    ← history_take hw hcommit, List.getElem?_take_of_lt (by omega)] at hentry
  exact hentry

/-- A call goes back to a section that found its node leading, with room at its index. -/
theorem submitted_moment (hr : Cluster.Run cfg w w') {k : Nat} (hk : w.submits.length ≤ k)
    {s : Submit} (hs : w'.submits[k]? = some s) : ∃ w₁, Cluster.Run cfg w w₁ ∧
      (w₁.nodes s.node).state = .leader ∧ s.index = (w₁.nodes s.node).log.lastIndex + 1 ∧
      s.term = (w₁.nodes s.node).currentTerm := by
  revert hs
  refine Execution.Run.invariant hr ?_ ?_
  · intro hs
    exact absurd (List.getElem?_eq_some_iff.mp hs).1 (Nat.not_lt.mpr hk)
  · intro w₁ ev w₂ hrun ih hstep hs
    rcases act_submits hstep with heq | ⟨i, command, index, term, hres, heq⟩
    · rw [heq] at hs; exact ih hs
    · rw [heq] at hs
      rcases Nat.lt_or_ge k w₁.submits.length with hlt | hge
      · rw [List.getElem?_append_left hlt] at hs; exact ih hs
      · rw [List.getElem?_append_right hge, List.getElem?_singleton] at hs
        split at hs
        · obtain rfl := Option.some.inj hs
          obtain ⟨hlead, hindex, hterm⟩ := Node.submitCommand_appended hres
          exact ⟨w₁, hrun, hlead, hindex, hterm⟩
        · exact absurd hs (by simp)

/-- Where a log holds an entry, the leader of the entry's term appends no other one later. -/
theorem no_second_entry (hw : Cluster.Reachable cfg w) (hr : Cluster.Run cfg w w') {i j : NodeID}
    {k : Nat} {e : LogEntry} (hk : 1 ≤ k) (he : (w.nodes i).log.entries[k]? = some e)
    (hl : (w'.nodes j).state = .leader) (ht : (w'.nodes j).currentTerm = e.term) :
    k ≤ (w'.nodes j).log.lastIndex := by
  obtain ⟨S, hS⟩ := sim_reachable hw
  obtain ⟨S', hrun, hS'⟩ := sim_run hS hr
  rw [RaftLog.getElem?_entries _ hk] at he
  obtain ⟨hp, hlen⟩ := prefix_of_getElem? he
  obtain ⟨r, hreign, hpr, _⟩ := hS.inv.logs.rooted _ (hS.nodes i).held _ _ hp
  obtain ⟨r', hreign', _, _, hpr'⟩ := (Consensus.le_of_steps hrun).reign _ r hreign
  obtain ⟨b, hb⟩ := (hS'.nodes j).reign hl
  rw [ht, show e.term = Consensus.Entry.term e from rfl, hreign'] at hb
  have hle := (hpr.trans hpr').length_le
  rw [Option.some.inj hb, List.length_append, hlen, List.length_singleton] at hle
  rw [RaftLog.lastIndex_eq]
  dsimp only at hle
  omega

/-- What is acknowledged before a call is made comes before what the call writes. -/
theorem acknowledged_before (hw : Cluster.Reachable cfg w) (hr : Cluster.Run cfg w w')
    {k k' : Nat} {s s' : Submit} (h : w.Acked k s) (hlater : w.submits.length ≤ k')
    (h' : w'.Acked k' s') : s.index < s'.index := by
  obtain ⟨_, hcommit, _, _⟩ := h.committed hw
  obtain ⟨hpos', hcommit', _, hholds'⟩ := h'.committed (hw.trans hr)
  by_contra hle
  -- the index of the second entry was committed when the first call returned
  obtain ⟨heq, hlen, _⟩ := committed_agree hw hr
    (Nat.le_trans (Nat.le_of_not_lt hle) hcommit) hcommit'
  obtain ⟨e, he, he'⟩ := same_entry heq hlen hpos' (Nat.le_refl _)
  obtain rfl : s'.entry = e := Option.some.inj ((hholds' s'.node hcommit').symm.trans he')
  obtain ⟨w₁, hr₁, hlead, hindex, hterm⟩ := submitted_moment hr hlater h'.1
  have hroom := no_second_entry hw hr₁ hpos' he hlead hterm.symm
  omega

/--
**Acknowledged writes are in the order of real time.** If a call of `SubmitCommand` has
returned success, and another call that appends its entry later returns success too,
then the second index is the larger one; each entry stands in the history of the
cluster at its index, and nothing up to the first of them changes any more.
-/
theorem acknowledged_in_order (hw : Cluster.Reachable cfg w) (hr : Cluster.Run cfg w w')
    {k k' : Nat} {s s' : Submit} (h : w.Acked k s) (hlater : w.submits.length ≤ k')
    (h' : w'.Acked k' s') :
    s.index < s'.index ∧ (w'.history cfg)[s.index - 1]? = some s.entry ∧
      (w'.history cfg)[s'.index - 1]? = some s'.entry ∧
      (w'.history cfg).take s.index = (w.history cfg).take s.index := by
  obtain ⟨_, hcommit, _, _⟩ := h.committed hw
  obtain ⟨rest, hrest⟩ := history_mono hw hr
  have hlen := commitIndex_le_history hw s.node
  have hstand := (h.in_history hw).2
  refine ⟨acknowledged_before hw hr h hlater h', ?_, (h'.in_history (hw.trans hr)).2, ?_⟩
  · rw [← hrest, List.getElem?_append_left (List.getElem?_eq_some_iff.mp hstand).1]
    exact hstand
  · rw [← hrest, List.take_append_of_le_length (Nat.le_trans hcommit hlen)]

/-- Node `b` writes twice, the second time after the first write was acknowledged. -/
theorem acknowledged_in_order_abc : ∃ w w', Cluster.Reachable volatileABC w ∧
    Cluster.Run volatileABC w w' ∧ w.Acked 0 ⟨"b", [1], 1, 1⟩ ∧ w'.Acked 1 ⟨"b", [2], 2, 1⟩ ∧
    (w'.history volatileABC)[0]? = some ⟨1, 1, [1]⟩ ∧
    (w'.history volatileABC)[1]? = some ⟨1, 2, [2]⟩ := by
  obtain ⟨w, hw, hacked, hlen, h⟩ := Cluster.exists_run volatileABC (Cluster.init volatileABC)
    (acknowledgeEvents ++ [.pollSubmit 0])
    (fun w => (w.submits[0]? = some ⟨"b", [1], 1, 1⟩ ∧ (0, Outcome.success) ∈ w.returned) ∧
      w.submits.length ≤ 1 ∧
      ∃ w' ∈ w.exec volatileABC [.submitCommand "b" [2], .replicateLog "b" "c", .appendEntries 1,
        .appendReply 1, .collectApply "b", .sendApply "b", .finishApply "b", .pollSubmit 1],
        w'.submits[1]? = some ⟨"b", [2], 2, 1⟩ ∧ (1, Outcome.success) ∈ w'.returned)
    (by decide +kernel)
  obtain ⟨w', hr, hacked'⟩ := Cluster.exists_run _ _ _ _ h
  obtain ⟨_, hfirst, hsecond, _⟩ := acknowledged_in_order hw hr hacked hlen hacked'
  exact ⟨w, w', hw, hr, hacked, hacked', hfirst, hsecond⟩

end GammaFlow.Raft
