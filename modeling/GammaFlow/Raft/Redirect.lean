import GammaFlow.Raft.Clients

/-!
# Writes that are redirected

`SubmitCommand` returns `ErrNotLeader` before it has appended anything, and also when
its node is no longer leader of the term of the entry it has appended. The handlers
answer both with a redirect, and the client sends the same command to another node.

In the second case the entry is still there. It is in the log of the node that gave
up on it and in those of the followers it was sent to, and whoever of them is elected
goes on replicating it. The promise of a redirect, that nothing was done, is kept in the
runs in which no such entry finds an heir (`Heirless`).
-/

namespace GammaFlow.Raft

open GammaFlow.Storage

variable {ω : Type}

/-- The node has the entry in its log, at the index the entry says. -/
def Node.Has (n : Node ω) (e : LogEntry) : Prop := n.log.entries[e.index]? = some e

instance (n : Node ω) (e : LogEntry) : Decidable (n.Has e) :=
  inferInstanceAs (Decidable (_ = _))

namespace Cluster

/-- The entries of the calls that have returned `ErrNotLeader`. -/
def givenUp (w : Cluster ω) : List Submit :=
  w.returned.filterMap fun r => if r.2 = .errNotLeader then w.submits[r.1]? else none

/-- The entry of a call whose next look finds its node deposed. -/
def abandons (w : Cluster ω) : Event → Option Submit
  | .pollSubmit k => w.submits[k]?.filter fun s =>
      (w.nodes s.node).state ≠ .leader ∨ (w.nodes s.node).currentTerm ≠ s.term
  | _ => none

/-- Some leader has the entry. -/
def Led (cfg : Config ω) (w : Cluster ω) (e : LogEntry) : Prop :=
  ∃ i ∈ cfg.ids, (w.nodes i).state = .leader ∧ (w.nodes i).Has e

instance (cfg : Config ω) (w : Cluster ω) (e : LogEntry) : Decidable (w.Led cfg e) :=
  inferInstanceAs (Decidable (∃ i ∈ cfg.ids, _))

/-- How many nodes have the entry. -/
def holders (cfg : Config ω) (w : Cluster ω) (e : LogEntry) : Nat :=
  cfg.ids.countP fun i => (w.nodes i).Has e

/-- Some node has the entry at or below its commit index. -/
def Committed (w : Cluster ω) (e : LogEntry) : Prop :=
  ∃ i, e.index ≤ (w.nodes i).commitIndex ∧ (w.nodes i).Has e

end Cluster

/-- No entry that is given up, in this step or before, has an heir. -/
structure Heirless (cfg : Config ω) (w : Cluster ω) (ev : Event) (w' : Cluster ω) : Prop where
  /-- A call gives up only on an entry that no leader has, and no majority. -/
  abandoned : ∀ s ∈ w.abandons ev,
    ¬ w.Led cfg s.entry ∧ 2 * w.holders cfg s.entry ≤ cfg.ids.length
  /-- Whoever is elected has none of the entries that were given up. -/
  elected : ∀ i ∈ cfg.ids, (w.nodes i).state ≠ .leader → (w'.nodes i).state = .leader →
    ∀ s ∈ w.givenUp, ¬ (w.nodes i).Has s.entry

instance (cfg : Config ω) (w : Cluster ω) (ev : Event) (w' : Cluster ω) :
    Decidable (Heirless cfg w ev w') :=
  decidable_of_iff (_ ∧ _) ⟨fun h => ⟨h.1, h.2⟩, fun h => ⟨h.1, h.2⟩⟩

variable [Journal ω] {cfg : Config ω} {w w' : Cluster ω} {ev : Event}

/-! ## Where a commit index comes from -/

/-- A commit index rises when a leader counts replies or a follower is told. -/
theorem act_commitIndex (hs : w.act cfg ev = some w') (i : NodeID) :
    (w'.nodes i).commitIndex = (w.nodes i).commitIndex ∨
      ((w.nodes i).state = .leader ∧ (w'.nodes i).log = (w.nodes i).log) ∨
      ∃ (k : Nat) (c : AppendCall), w.appendCalls[k]? = some c ∧
        (w'.nodes i).commitIndex ≤ max (w.nodes i).commitIndex c.args.leaderCommit := by
  rcases act_nodes hs i with heq | hst
  · rw [heq]; exact Or.inl rfl
  generalize w'.nodes i = n' at hst ⊢
  cases hst with
  | startElection _ =>
      obtain ⟨rt, d, he, _⟩ := (w.nodes i).startElection_eq
      rw [he]; exact Or.inl rfl
  | requestVote _ c _ _ =>
      left
      have hsee : ((w.nodes i).seeTerm c.args.term).commitIndex = (w.nodes i).commitIndex := by
        unfold Node.seeTerm
        split
        · obtain ⟨rt, d, he⟩ := (w.nodes i).becomeFollowerLocked_eq c.args.term
          rw [he]
        · rfl
      obtain ⟨v, rt, d, he⟩ := (w.nodes i).handleRequestVote_eq c.args
      rw [he]
      exact hsee
  | voteReply _ c r _ _ =>
      left
      have hv := (w.nodes i).voteReplied c.args.term c.peer r
      generalize (w.nodes i).handleVoteReply c.args.term c.peer r = n' at hv ⊢
      cases hv with
      | idle _ => rfl
      | stepDown _ _ _ =>
          obtain ⟨rt, d, he⟩ := (w.nodes i).becomeFollowerLocked_eq r.term
          rw [he]
      | counted _ _ _ _ _ _ => rfl
      | elected _ _ _ _ _ _ => rfl
  | appendEntries k c hc _ =>
      exact Or.inr (Or.inr ⟨k, c, hc, Node.handleAppendEntries_commit_le _ _⟩)
  | appendReply _ c r _ _ =>
      have hlog := (w.nodes i).quiet_handleAppendReply c.args.term c.peer c.args.entries r
      rcases (w.nodes i).handleAppendReply_cases c.args.term c.peer c.args.entries r with
        ⟨hl, _⟩ | ⟨ni, mi, cm, _, hcm, he⟩
      · exact Or.inr (Or.inl ⟨hl, hlog.log⟩)
      · by_cases hl : (w.nodes i).state = .leader
        · exact Or.inr (Or.inl ⟨hl, hlog.log⟩)
        · rw [he]; exact Or.inl (hcm hl)
  | submitCommand command _ =>
      left
      rcases (w.nodes i).submitCommand_cases command with ⟨_, he⟩ | ⟨_, d, he⟩
      · rw [he]
      · rw [he]
  | finishApply m _ => exact Or.inl rfl

/-- What the network says was committed was committed by its sender. -/
structure CommitsTold (w : Cluster ω) : Prop where
  heartbeats : ∀ hb ∈ w.heartbeats, hb.commitIndex ≤ (w.nodes hb.caller).commitIndex
  calls : ∀ c ∈ w.appendCalls, c.args.leaderCommit ≤ (w.nodes c.caller).commitIndex

theorem commitsTold_step (hw : Cluster.Reachable cfg w) (h : CommitsTold w)
    (hs : w.act cfg ev = some w') : CommitsTold w' := by
  have hmono := commitIndex_mono hw (Relation.ReflTransGen.single ⟨ev, hs⟩)
  constructor
  · intro hb hm
    rcases mem_heartbeats hs hm with hm | ⟨i, p, _, _, _, rfl⟩
    · exact Nat.le_trans (h.heartbeats hb hm) (hmono _)
    · exact hmono i
  · intro c hc
    rcases mem_appendCalls hs hc with hc | ⟨k, hb, _, hk, rfl⟩ | ⟨i, p, _, _, _, rfl⟩
    · exact Nat.le_trans (h.calls c hc) (hmono _)
    · exact Nat.le_trans (h.heartbeats hb (List.mem_of_getElem? hk)) (hmono _)
    · exact hmono i

theorem commitsTold_reachable (hw : Cluster.Reachable cfg w) : CommitsTold w := by
  refine Execution.Run.invariant hw ?_ ?_
  · exact ⟨fun _ h => absurd h (by simp [Cluster.init]), fun _ h => absurd h (by simp [Cluster.init])⟩
  · intro w₁ ev w₂ hr h hs
    exact commitsTold_step hr h hs

theorem leader_mem (hw : Cluster.Reachable cfg w) {i : NodeID} (hl : (w.nodes i).state = .leader) :
    i ∈ cfg.ids := by
  obtain ⟨S, hS⟩ := sim_reachable hw
  obtain ⟨b, hb⟩ := (hS.nodes i).reign hl
  exact hS.camp_ids _ _ _ (hS.inv.ballots.reign_camp hb)

/-- **An entry is committed first by a leader that has it.** -/
theorem committed_step (hw : Cluster.Reachable cfg w) (hs : w.act cfg ev = some w') {e : LogEntry}
    (he : 1 ≤ e.index) (h : w'.Committed e) : w.Committed e ∨ w.Led cfg e := by
  obtain ⟨i, hi, hhas⟩ := h
  have hrun : Cluster.Run cfg w w' := Relation.ReflTransGen.single ⟨ev, hs⟩
  -- whoever had committed the index before the step had committed this entry
  have hback : ∀ j, e.index ≤ (w.nodes j).commitIndex → w.Committed e := by
    intro j hj
    obtain ⟨heq, hlen, _⟩ := committed_agree hw hrun hj hi
    obtain ⟨x, hx, hx'⟩ := same_entry heq hlen he (Nat.le_refl _)
    refine ⟨j, hj, ?_⟩
    unfold Node.Has at hhas ⊢
    rw [hx, ← hx', hhas]
  by_cases hbefore : e.index ≤ (w.nodes i).commitIndex
  · exact Or.inl (hback i hbefore)
  rcases act_commitIndex hs i with heq | ⟨hlead, hlog⟩ | ⟨k, c, hc, hle⟩
  · rw [heq] at hi; exact absurd hi hbefore
  · refine Or.inr ⟨i, leader_mem hw hlead, hlead, ?_⟩
    unfold Node.Has at hhas ⊢
    rw [← hlog]; exact hhas
  · have htold := (commitsTold_reachable hw).calls c (List.mem_of_getElem? hc)
    exact Or.inl (hback c.caller (by omega))

/-- A committed entry is in the logs of a majority. -/
theorem holders_of_committed (hw : Cluster.Reachable cfg w) {e : LogEntry} (he : 1 ≤ e.index)
    (h : w.Committed e) : cfg.ids.length < 2 * w.holders cfg e := by
  obtain ⟨S, hS⟩ := sim_reachable hw
  obtain ⟨i, hi, hhas⟩ := h
  have hback := hS.inv.commits.node i
  rw [(hS.nodes i).commit, (hS.nodes i).log] at hback
  rcases hback with h0 | ⟨t, C, _, hdec, hlen, hpre⟩
  · omega
  -- whoever acknowledged the decided prefix still has it, and the entry is in it
  have hC : C[e.index - 1]? = some e := by
    unfold Node.Has at hhas
    rw [RaftLog.getElem?_entries _ he] at hhas
    obtain ⟨rest, hrest⟩ := hpre
    rw [← hrest, List.getElem?_append_left (by rw [List.length_take]; omega),
      List.getElem?_take_of_lt (by omega)] at hhas
    exact hhas
  have hkept := hS.inv.complete t C hdec.1 hdec.open
  obtain ⟨q, hnd, hids, hq, hmaj⟩ := hdec.2
  have hsub : q ⊆ cfg.ids.filter fun i => (w.nodes i).Has e := by
    intro j hj
    refine List.mem_filter.mpr ⟨hids j hj, decide_eq_true ?_⟩
    obtain ⟨rest, hrest⟩ := hkept.acked j (hq j hj)
    unfold Node.Has
    rw [RaftLog.getElem?_entries _ he, ← (hS.nodes j).log, ← hrest,
      List.getElem?_append_left (List.getElem?_eq_some_iff.mp hC).1, hC]
  have hle := (List.subperm_of_subset hnd hsub).length_le
  rw [← List.countP_eq_length_filter] at hle
  unfold Cluster.holders
  omega

/-! ## The logs of leaders -/

/-- A leader that stays one keeps its log, or appends an entry of its term. -/
theorem leader_log_step (hs : w.act cfg ev = some w') {i : NodeID}
    (hl : (w.nodes i).state = .leader) (hl' : (w'.nodes i).state = .leader) :
    (w'.nodes i).log = (w.nodes i).log ∨ ∃ command, (w'.nodes i).log =
      (w.nodes i).log.append [⟨(w.nodes i).currentTerm, (w.nodes i).log.lastIndex + 1, command⟩] := by
  have hst := leaderStep_of_act hs hl hl'
  generalize w'.nodes i = n' at hst ⊢
  cases hst with
  | idle _ hlog _ => exact Or.inl hlog
  | reply c r _ _ => exact Or.inl (Node.quiet_handleAppendReply _ _ _ _ _).log
  | append command =>
      obtain ⟨d, he, _⟩ := (w.nodes i).submitCommand_eq hl command
      rw [he]; exact Or.inr ⟨command, rfl⟩

/-- A leader comes to have the entry of an earlier call only by being elected with it. -/
theorem led_step (hw : Cluster.Reachable cfg w) (hs : w.act cfg ev = some w') {s : Submit}
    (hsub : s ∈ w.submits) (h : w'.Led cfg s.entry) :
    w.Led cfg s.entry ∨ ∃ i ∈ cfg.ids, (w.nodes i).state ≠ .leader ∧
      (w'.nodes i).state = .leader ∧ (w.nodes i).Has s.entry := by
  obtain ⟨i, hid, hl', hhas⟩ := h
  by_cases hl : (w.nodes i).state = .leader
  swap
  · obtain ⟨k, c, r, _, _, _, hn⟩ := enters_leader hs hl hl'
    refine Or.inr ⟨i, hid, hl, hl', ?_⟩
    unfold Node.Has at hhas ⊢
    rw [hn, (Node.quiet_handleVoteReply _ _ _ _).log] at hhas
    exact hhas
  refine Or.inl ⟨i, hid, hl, ?_⟩
  unfold Node.Has at hhas ⊢
  rcases leader_log_step hs hl hl' with hlog | ⟨command, hlog⟩
  · rw [← hlog]; exact hhas
  obtain ⟨S, hS⟩ := sim_reachable hw
  obtain ⟨_, hpos, r, hreign, _, hentry⟩ := hS.submits s hsub
  have hindex : s.entry.index = s.index := rfl
  rw [hindex] at hhas ⊢
  rw [hlog, RaftLog.getElem?_entries _ hpos, RaftLog.body_append] at hhas
  rw [RaftLog.getElem?_entries _ hpos]
  rcases Nat.lt_or_ge (s.index - 1) (w.nodes i).log.body.length with hlt | hge
  · rw [List.getElem?_append_left hlt] at hhas; exact hhas
  · -- the new entry would be of the same reign, whose log has the old one already
    rw [List.getElem?_append_right hge, List.getElem?_singleton] at hhas
    split at hhas
    · have hterm : (w.nodes i).currentTerm = s.term :=
        congrArg LogEntry.term (Option.some.inj hhas)
      obtain ⟨b, hb⟩ := (hS.nodes i).reign hl
      rw [hterm, hreign] at hb
      rw [Option.some.inj hb] at hentry
      exact hentry
    · exact absurd hhas (by simp)

/-! ## Entries without an heir -/

/-- One round of polling, said in full. -/
theorem act_pollSubmit {k : Nat} (hs : w.act cfg (.pollSubmit k) = some w') :
    ∃ s, w.submits[k]? = some s ∧ (w' = w ∨
      ((w.nodes s.node).pollSubmit s.index s.term = .done ∧
        w' = { w with returned := w.returned ++ [(k, .success)] }) ∨
      ((w.nodes s.node).pollSubmit s.index s.term = .errNotLeader ∧
        w' = { w with returned := w.returned ++ [(k, .errNotLeader)] })) := by
  rw [Cluster.act] at hs
  split at hs
  · exact absurd hs (by simp)
  rename_i s hk
  refine ⟨s, hk, ?_⟩
  split at hs
  · exact absurd hs (by simp)
  split at hs
  · rename_i hpoll
    exact Or.inr (Or.inr ⟨hpoll, (Option.some.inj hs).symm⟩)
  · rename_i hpoll
    exact Or.inr (Or.inl ⟨hpoll, (Option.some.inj hs).symm⟩)
  · exact Or.inl (Option.some.inj hs).symm

theorem act_timeoutSubmit {k : Nat} (hs : w.act cfg (.timeoutSubmit k) = some w') :
    k < w.submits.length ∧ w' = { w with returned := w.returned ++ [(k, .errTimeout)] } := by
  rw [Cluster.act] at hs
  split at hs
  · rename_i h
    exact ⟨h.1, (Option.some.inj hs).symm⟩
  · exact absurd hs (by simp)

/-- Only calls that were made return. -/
theorem returned_lt (hw : Cluster.Reachable cfg w) : ∀ r ∈ w.returned, r.1 < w.submits.length := by
  refine Execution.Run.invariant hw (fun _ h => absurd h (by simp [Cluster.init])) ?_
  intro w₁ ev w₂ hr ih hs
  have hsnoc : ∀ {k : Nat} {o : Outcome}, k < w₁.submits.length →
      ∀ r ∈ w₁.returned ++ [(k, o)], r.1 < w₁.submits.length := by
    intro k o hk r hm
    rcases List.mem_append.mp hm with hm | hm
    · exact ih r hm
    · rw [List.mem_singleton.mp hm]; exact hk
  cases ev with
  | pollSubmit k =>
      obtain ⟨s, hk, rfl | ⟨_, rfl⟩ | ⟨_, rfl⟩⟩ := act_pollSubmit hs
      · exact ih
      · exact hsnoc (List.getElem?_eq_some_iff.mp hk).1
      · exact hsnoc (List.getElem?_eq_some_iff.mp hk).1
  | timeoutSubmit k =>
      obtain ⟨hk, rfl⟩ := act_timeoutSubmit hs
      exact hsnoc hk
  | _ =>
      intro r hm
      have hlen := (submits_mono (Relation.ReflTransGen.single ⟨_, hs⟩)).length_le
      refine Nat.lt_of_lt_of_le (ih r ?_) hlen
      cases acts_of_act hs <;> exact hm

omit [Journal ω] in
theorem mem_givenUp {s : Submit} :
    s ∈ w.givenUp ↔ ∃ k, (k, Outcome.errNotLeader) ∈ w.returned ∧ w.submits[k]? = some s := by
  unfold Cluster.givenUp
  rw [List.mem_filterMap]
  constructor
  · rintro ⟨⟨k, o⟩, hret, hk⟩
    split at hk
    · rename_i ho
      dsimp only at ho
      rw [ho] at hret
      exact ⟨k, hret, hk⟩
    · exact absurd hk (by simp)
  · rintro ⟨k, hret, hk⟩
    exact ⟨(k, .errNotLeader), hret, hk⟩

/-- A call gives up in the section that finds its node deposed. -/
theorem act_givenUp (hw : Cluster.Reachable cfg w) (hs : w.act cfg ev = some w') {s : Submit}
    (h : s ∈ w'.givenUp) :
    s ∈ w.givenUp ∨ (w'.nodes = w.nodes ∧ s ∈ w.submits ∧ s ∈ w.abandons ev) := by
  obtain ⟨k, hret, hk⟩ := mem_givenUp.mp h
  have hold : (k, Outcome.errNotLeader) ∈ w.returned → s ∈ w.givenUp := by
    intro hret
    have hrun : Cluster.Run cfg w w' := Relation.ReflTransGen.single ⟨ev, hs⟩
    obtain ⟨rest, hrest⟩ := submits_mono hrun
    rw [← hrest, List.getElem?_append_left (returned_lt hw _ hret)] at hk
    exact mem_givenUp.mpr ⟨k, hret, hk⟩
  have hother : ∀ {k' : Nat} {o : Outcome}, o ≠ .errNotLeader →
      (k, Outcome.errNotLeader) ∈ w.returned ++ [(k', o)] → s ∈ w.givenUp := by
    intro k' o ho hm
    rcases List.mem_append.mp hm with hm | hm
    · exact hold hm
    · exact absurd (Prod.mk.inj (List.mem_singleton.mp hm)).2.symm ho
  cases ev with
  | pollSubmit k' =>
      obtain ⟨s', hk', rfl | ⟨_, rfl⟩ | ⟨hpoll, rfl⟩⟩ := act_pollSubmit hs
      · exact Or.inl (hold hret)
      · exact Or.inl (hother (by simp) hret)
      · rcases List.mem_append.mp hret with hret | hret
        · exact Or.inl (hold hret)
        · obtain ⟨rfl, -⟩ := Prod.mk.inj (List.mem_singleton.mp hret)
          obtain rfl := Option.some.inj (hk.symm.trans hk')
          refine Or.inr ⟨rfl, List.mem_of_getElem? hk, ?_⟩
          unfold Node.pollSubmit at hpoll
          split at hpoll
          · rename_i hdep
            rw [Cluster.abandons, hk', Option.mem_def, Option.filter_some,
              if_pos (decide_eq_true hdep)]
          · split at hpoll <;> exact absurd hpoll (by simp)
  | timeoutSubmit k' =>
      obtain ⟨_, rfl⟩ := act_timeoutSubmit hs
      exact Or.inl (hother (by simp) hret)
  | _ => exact Or.inl (hold (by cases acts_of_act hs <;> exact hret))

/-- What was given up stays neither led nor committed. -/
theorem heirless_step (hw : Cluster.Reachable cfg w)
    (h : ∀ s ∈ w.givenUp, ¬ w.Led cfg s.entry ∧ ¬ w.Committed s.entry) (hh : Heirless cfg w ev w')
    (hs : w.act cfg ev = some w') :
    ∀ s ∈ w'.givenUp, ¬ w'.Led cfg s.entry ∧ ¬ w'.Committed s.entry := by
  obtain ⟨S, hS⟩ := sim_reachable hw
  intro s hgave
  rcases act_givenUp hw hs hgave with hold | ⟨hnodes, hsub, hab⟩
  · obtain ⟨hnl, hnc⟩ := h s hold
    obtain ⟨k, _, hk⟩ := mem_givenUp.mp hold
    have hsub := List.mem_of_getElem? hk
    refine ⟨?_, ?_⟩
    · intro hled
      rcases led_step hw hs hsub hled with hl | ⟨i, hid, hl, hl', hhas⟩
      · exact hnl hl
      · exact hh.elected i hid hl hl' s hold hhas
    · intro hcom
      rcases committed_step hw hs (hS.submits s hsub).2.1 hcom with hc | hl
      · exact hnc hc
      · exact hnl hl
  · obtain ⟨hnl, hfew⟩ := hh.abandoned s hab
    have hnc : ¬ w.Committed s.entry := fun hcom =>
      absurd (holders_of_committed hw (hS.submits s hsub).2.1 hcom) (Nat.not_lt.mpr hfew)
    unfold Cluster.Led Cluster.Committed at *
    rw [hnodes]
    exact ⟨hnl, hnc⟩

/--
**Redirected writes.** In a run in which no entry that is given up has an heir, no
entry of a call that has returned `ErrNotLeader` is ever committed by any node. So of
the calls that one request makes on its way through redirects, all but the last of
which have returned `ErrNotLeader`, at most one has an entry that is committed.
-/
theorem redirected_once {evs : List Event} (hx : (Cluster.init cfg).exec cfg evs = some w)
    (hh : Execution.Always (Cluster.act cfg) (Heirless cfg) (Cluster.init cfg) evs) :
    (∀ s ∈ w.givenUp, ¬ w.Committed s.entry) ∧
    (∀ chain : List Nat, (∀ k ∈ chain.dropLast, (k, Outcome.errNotLeader) ∈ w.returned) →
      ∀ k ∈ chain, ∀ k' ∈ chain, ∀ s s', w.submits[k]? = some s → w.submits[k']? = some s' →
        w.Committed s.entry → w.Committed s'.entry → k = k') := by
  have hinv : ∀ s ∈ w.givenUp, ¬ w.Led cfg s.entry ∧ ¬ w.Committed s.entry := by
    refine Execution.Always.invariant (I := fun _ w => ∀ s ∈ w.givenUp,
      ¬ w.Led cfg s.entry ∧ ¬ w.Committed s.entry) ?_ ?_ hh hx
    · intro s hs
      exact absurd hs (by simp [Cluster.init, Cluster.givenUp])
    · intro _ w₁ ev w₂ hx h hP hs
      exact heirless_step (Execution.run_of_exec hx) h hP hs
  refine ⟨fun s hs => (hinv s hs).2, ?_⟩
  intro chain hchain
  -- a committed entry can only be that of the last call
  have hlast : ∀ k ∈ chain, ∀ s, w.submits[k]? = some s → w.Committed s.entry →
      chain.getLast? = some k := by
    intro k hk s hs hcom
    rcases List.eq_nil_or_concat' chain with rfl | ⟨ks, l, rfl⟩
    · exact absurd hk (by simp)
    rw [List.dropLast_concat] at hchain
    rw [List.getLast?_concat]
    rcases List.mem_append.mp hk with hk | hk
    · exact absurd hcom (hinv s (mem_givenUp.mpr ⟨k, hchain k hk, hs⟩)).2
    · rw [List.mem_singleton.mp hk]
  intro k hk k' hk' s s' hs hs' hcom hcom'
  exact Option.some.inj ((hlast k hk s hs hcom).symm.trans (hlast k' hk' s' hs' hcom'))

/-- Node `b` appends an entry that no one gets; `c` is elected without it and gets the command. -/
def retryEvents : List Event :=
  [.startElection "b", .requestVote 0, .voteReply 0, .submitCommand "b" [1],
    .startElection "c", .startElection "c", .requestVote 4, .voteReply 1, .requestVote 5,
    .pollSubmit 0, .submitCommand "c" [1], .replicateLog "c" "a", .appendEntries 0, .appendReply 0]

theorem redirected_once_abc : ∃ w, (Cluster.init volatileABC).exec volatileABC retryEvents = some w ∧
    w.givenUp = [⟨"b", [1], 1, 1⟩] ∧ w.Committed ⟨2, 1, [1]⟩ ∧ ¬ w.Committed ⟨1, 1, [1]⟩ := by
  obtain ⟨w, hx, hgave, hcommit, hhas⟩ :
      ∃ w ∈ (Cluster.init volatileABC).exec volatileABC retryEvents,
        w.givenUp = [⟨"b", [1], 1, 1⟩] ∧ 1 ≤ (w.nodes "c").commitIndex ∧
        (w.nodes "c").Has ⟨2, 1, [1]⟩ := by
    decide +kernel
  refine ⟨w, hx, hgave, ⟨"c", hcommit, hhas⟩, ?_⟩
  exact (redirected_once hx (by decide +kernel)).1 ⟨"b", [1], 1, 1⟩ (by rw [hgave]; simp)

/--
Node `b` sends its entry to `c`, which is then elected with it and deposes `b`. The
client of `b` is redirected; another client's write is acknowledged by `c`; the
redirected command is submitted again. Node `c` applies it before and after the other.
-/
theorem redirected_twice_abc : ∃ w, Cluster.Reachable volatileABC w ∧
    w.givenUp = [⟨"b", [1], 1, 1⟩] ∧ w.Committed ⟨1, 1, [1]⟩ ∧
    w.Acked 1 ⟨"c", [2], 2, 2⟩ ∧ w.Acked 2 ⟨"c", [1], 3, 2⟩ ∧
    w.applyCh "c" = [⟨1, 1, [1]⟩, ⟨2, 2, [2]⟩, ⟨2, 3, [1]⟩] := by
  obtain ⟨w, hw, h⟩ := Cluster.exists_run volatileABC (Cluster.init volatileABC)
    (replicateEvents ++ [.startElection "c", .requestVote 3, .voteReply 1, .pollSubmit 0,
      .submitCommand "c" [2], .replicateLog "c" "b", .appendEntries 1, .appendReply 1,
      .collectApply "c", .sendApply "c", .sendApply "c", .finishApply "c", .pollSubmit 1,
      .submitCommand "c" [1], .replicateLog "c" "b", .appendEntries 2, .appendReply 2,
      .collectApply "c", .sendApply "c", .finishApply "c", .pollSubmit 2])
    (fun w => w.submits = [⟨"b", [1], 1, 1⟩, ⟨"c", [2], 2, 2⟩, ⟨"c", [1], 3, 2⟩] ∧
      w.returned = [(0, .errNotLeader), (1, .success), (2, .success)] ∧
      1 ≤ (w.nodes "c").commitIndex ∧ (w.nodes "c").Has ⟨1, 1, [1]⟩ ∧
      w.applyCh "c" = [⟨1, 1, [1]⟩, ⟨2, 2, [2]⟩, ⟨2, 3, [1]⟩]) (by decide +kernel)
  obtain ⟨hsub, hret, hcommit, hentry, happly⟩ := h
  exact ⟨w, hw, by rw [Cluster.givenUp, hret, hsub]; rfl, ⟨"c", hcommit, hentry⟩,
    ⟨by rw [hsub]; rfl, by simp [hret]⟩, ⟨by rw [hsub]; rfl, by simp [hret]⟩, happly⟩

end GammaFlow.Raft
