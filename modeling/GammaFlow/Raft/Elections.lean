import GammaFlow.Raft.EventLoop
import GammaFlow.Raft.Hints

/-!
# Candidates and leaders

Two things an election should see to: that a candidate with a majority becomes leader,
and that a leader stays one until it hears of a later term or of another leader.

The first is looked after where a vote is counted. `startElection` counts one itself,
the node's own, and does not look whether it is enough, as it is in a cluster of one
(`candidates_short_iff`).

The second would need `startElection` to look at the role again. The loop reads it in a
section of its own, and a vote that completes the previous election may be counted in
between (`leader_keeps_office`).
-/

namespace GammaFlow.Raft

open GammaFlow.Storage

variable {ω : Type} [Journal ω]

/-! ## Majorities -/

/-- As a candidate, the node has counted every vote once, and too few of them. -/
def Node.Short (n : Node ω) : Prop :=
  n.state = .candidate →
    n.votes = n.votesReceived.length ∧ n.votesReceived.Nodup ∧ n.votes < n.majority

section Short

variable {cfg : Config ω} {w w' : Cluster ω} {i : NodeID} {n n' : Node ω}

omit [Journal ω] in
theorem short_of_state (h : n.state ≠ .candidate) : n.Short := fun hc => absurd hc h

theorem short_becomeFollowerLocked (n : Node ω) (t : Nat) : (n.becomeFollowerLocked t).Short :=
  short_of_state (by simp)

/-- Own votes and counted votes leave a candidate short, if there is anyone else to ask. -/
theorem short_section {ev : Event} (h : (w.nodes i).Short) (hst : NodeStep cfg w i ev n')
    (hmany : i ∈ cfg.ids → 1 < (w.nodes i).majority) : n'.Short := by
  cases hst with
  | startElection hi =>
      obtain ⟨rt, d, he, _⟩ := (w.nodes i).startElection_eq
      rw [he]
      exact fun _ => ⟨rfl, List.nodup_singleton _, hmany hi⟩
  | requestVote _ c _ _ =>
      obtain ⟨v, rt, d, he⟩ := (w.nodes i).handleRequestVote_eq c.args
      have hsee : ((w.nodes i).seeTerm c.args.term).Short := by
        unfold Node.seeTerm
        split
        · exact short_becomeFollowerLocked _ _
        · exact h
      rw [he]
      exact hsee
  | voteReply _ c r _ _ =>
      have hv := (w.nodes i).voteReplied c.args.term c.peer r
      generalize (w.nodes i).handleVoteReply c.args.term c.peer r = n' at hv ⊢
      cases hv with
      | idle _ => exact h
      | stepDown _ _ _ => exact short_becomeFollowerLocked _ _
      | counted _ hc _ _ hnew hfew =>
          obtain ⟨hvotes, hnd, _⟩ := h hc
          refine fun _ => ⟨?_, ?_, hfew⟩
          · dsimp only
            rw [List.length_append, List.length_singleton, hvotes]
          · exact List.nodup_append.mpr ⟨hnd, List.nodup_singleton _,
              fun a ha b hb => by rw [List.mem_singleton.mp hb]; rintro rfl; exact hnew ha⟩
      | elected _ _ _ _ _ _ => exact short_of_state (by simp [Node.becomeLeaderLocked])
  | appendEntries _ c _ _ =>
      have hh := (w.nodes i).appendHandled c.args
      generalize ((w.nodes i).handleAppendEntries c.args).1 = n' at hh ⊢
      generalize ((w.nodes i).handleAppendEntries c.args).2 = r at hh
      cases hh with
      | stale _ => exact h
      | refused _ _ _ _ _ _ => exact short_of_state (by simp [Node.followed])
      | accepted _ _ _ _ _ _ => exact short_of_state (by simp [Node.followed])
  | appendReply _ c r _ _ =>
      rcases (w.nodes i).handleAppendReply_cases c.args.term c.peer c.args.entries r with
        ⟨_, _, he⟩ | ⟨ni, mi, cm, _, _, he⟩
      · rw [he]; exact short_becomeFollowerLocked _ _
      · rw [he]; exact h
  | submitCommand command _ =>
      rcases (w.nodes i).submitCommand_cases command with ⟨_, he⟩ | ⟨_, d, he⟩
      · rw [he]; exact h
      · rw [he]; exact h
  | finishApply m _ => exact h

theorem nodeStep_peers {ev : Event} (hst : NodeStep cfg w i ev n') :
    n'.peers = (w.nodes i).peers := by
  cases hst with
  | startElection _ => exact ((w.nodes i).quiet_startElection).peers
  | requestVote _ c _ _ => exact ((w.nodes i).quiet_handleRequestVote c.args).peers
  | voteReply _ c r _ _ => exact ((w.nodes i).quiet_handleVoteReply c.args.term c.peer r).peers
  | appendEntries _ c _ _ => exact ((w.nodes i).handleAppendEntries_frame c.args).2.1
  | appendReply _ c r _ _ =>
      exact ((w.nodes i).quiet_handleAppendReply c.args.term c.peer c.args.entries r).peers
  | submitCommand command _ => exact ((w.nodes i).submitCommand_frame command).2.1
  | finishApply m _ => rfl

theorem short_run (hn : cfg.ids.length ≠ 1)
    (hr : Execution.Run (Cluster.occur cfg) (Cluster.init cfg) w) :
    ∀ i, (w.nodes i).peers = cfg.peers i ∧ (w.nodes i).Short := by
  refine Execution.Run.invariant (I := fun w => ∀ i, (w.nodes i).peers = cfg.peers i ∧
    (w.nodes i).Short) hr ?_ ?_
  · exact fun i => ⟨rfl, short_of_state (by simp [Cluster.init, Node.start, Node.newNode])⟩
  · intro w₁ t w₂ _ h hs i
    obtain ⟨hpeers, hshort⟩ := h i
    rcases occur_nodes hs i with heq | ⟨ev, _, hst⟩ | ⟨wal, r, he⟩
    · rw [heq]; exact h i
    · refine ⟨(nodeStep_peers hst).trans hpeers, short_section hshort hst ?_⟩
      intro hi
      have hlen := cfg.length_peers hi
      unfold Node.majority
      rw [hpeers]
      omega
    · obtain ⟨log, rt, hr⟩ := reborn_eq cfg i wal r
      rw [he, hr]
      exact ⟨rfl, short_of_state (by simp [Node.newNode])⟩

end Short

/--
**A winning candidate is a leader, unless it is alone.** In every state that the cluster
can reach, with restarts, every candidate has as many votes as there are distinct ids in
`votesReceived`, and less than a majority: exactly if the cluster is not a single node.
-/
theorem candidates_short_iff (cfg : Config ω) :
    (∀ w, Execution.Run (Cluster.occur cfg) (Cluster.init cfg) w →
      ∀ i, (w.nodes i).state = .candidate →
        (w.nodes i).votes = (w.nodes i).votesReceived.dedup.length ∧
        (w.nodes i).votes < (w.nodes i).majority) ↔ cfg.ids.length ≠ 1 := by
  constructor
  · intro h hone
    obtain ⟨i, hids⟩ := List.length_eq_one_iff.mp hone
    have hi : i ∈ cfg.ids := by rw [hids]; exact List.mem_singleton_self i
    have hpeers := cfg.length_peers hi
    obtain ⟨rt, d, he, _⟩ := ((Cluster.init cfg).nodes i).startElection_eq
    -- its first election
    obtain ⟨w, hw, hnode⟩ : ∃ w, (Cluster.init cfg).occur cfg (.event (.startElection i)) = some w ∧
        w.nodes i = ((Cluster.init cfg).nodes i).startElection.1 := by
      rw [Cluster.occur, Cluster.act, if_pos hi]
      exact ⟨_, rfl, setNode_self _ _ _⟩
    have hfew := (h w (Relation.ReflTransGen.single ⟨_, hw⟩) i (by rw [hnode, he])).2
    rw [hnode, he] at hfew
    unfold Node.majority at hfew
    have hsame : ((Cluster.init cfg).nodes i).peers = cfg.peers i := rfl
    dsimp only at hfew
    rw [hsame] at hfew
    omega
  · intro hn w hr i hc
    obtain ⟨hvotes, hnd, hfew⟩ := (short_run hn hr i).2 hc
    rw [hnd.dedup]
    exact ⟨hvotes, hfew⟩

/-- A cluster of one. -/
def alone : Config OneFile where
  ids := ["a"]
  nodup := List.nodup_singleton _
  id_ne_empty := by decide
  peers := fun _ => []
  peers_perm := by decide
  wal := fun _ => none

/-- Its node is a candidate with the one vote it needs. -/
theorem candidate_alone : ∃ w, Cluster.Reachable alone w ∧ (w.nodes "a").state = .candidate ∧
    (w.nodes "a").votes = 1 ∧ (w.nodes "a").majority = 1 := by
  obtain ⟨w, hw, h⟩ := Cluster.exists_run alone (Cluster.init alone) [.startElection "a"]
    (fun w => (w.nodes "a").state = .candidate ∧ (w.nodes "a").votes = 1 ∧
      (w.nodes "a").majority = 1) (by decide +kernel)
  exact ⟨w, hw, h⟩

/-! ## Replication contexts -/

namespace Runtime

/-- What a runtime keeps of its replication goroutines. -/
def leases (rt : Runtime) : List Bool × Option Nat := (rt.contexts, rt.replicateCancel)

theorem leases_onTimer (rt : Runtime) (t : Option Nat) (f : Timer → Timer) :
    (rt.onTimer t f).leases = rt.leases := by
  unfold onTimer
  split <;> rfl

theorem leases_resetElectionTimerLocked (rt : Runtime) :
    rt.resetElectionTimerLocked.leases = rt.leases := by
  unfold resetElectionTimerLocked
  split
  · rfl
  · exact leases_onTimer rt _ _

theorem leases_stopLeading (rt : Runtime) :
    rt.stopLeading.leases = rt.cancelReplication.leases := by
  unfold stopLeading stopHeartbeatTimer onTimer
  split
  · rfl
  · unfold cancelReplication
    dsimp only
    split <;> rfl

/-- At most the goroutines that `replicateCancel` stops are running. -/
def Leashed (rt : Runtime) : Prop := ∀ c, rt.contexts[c]? = some false → rt.replicateCancel = some c

/-- No replication goroutine is running. -/
def Halted (rt : Runtime) : Prop := ∀ x ∈ rt.contexts, x = true

theorem halted_cancelReplication {rt : Runtime} (h : rt.Leashed) :
    rt.cancelReplication.Halted := by
  intro x hx
  obtain ⟨k, hk⟩ := List.mem_iff_getElem?.mp hx
  cases x with
  | true => rfl
  | false =>
      exfalso
      unfold cancelReplication at hk
      split at hk
      · rename_i hnone
        exact absurd (hnone.symm.trans (h k hk)) (by simp)
      · rename_i c hc
        dsimp only at hk
        rw [List.getElem?_modify] at hk
        split at hk
        · rw [Option.map_eq_map, Option.map_eq_some_iff] at hk
          obtain ⟨_, _, habs⟩ := hk
          exact absurd habs (by simp)
        · rename_i hne
          rw [Option.map_eq_map, Option.map_id'] at hk
          exact hne (Option.some.inj (hc.symm.trans (h k hk)))

end Runtime

/-- How role and replication goroutines go together in a section. -/
inductive Handover (n n' : Node ω) : Prop
  | keep : (n'.state = .leader ↔ n.state = .leader) → n'.rt.leases = n.rt.leases → Handover n n'
  | down : n'.state = .follower → n'.rt.leases = n.rt.cancelReplication.leases → Handover n n'
  | up : n.state ≠ .leader → n'.state = .leader → n'.rt.leases = n.rt.newContext.leases →
      Handover n n'

section Handover

variable {n n₁ n' : Node ω}

omit [Journal ω] in
theorem Handover.congr (h : Handover n n₁) (hs : n'.state = n₁.state)
    (hrt : n'.rt.leases = n₁.rt.leases) : Handover n n' := by
  cases h with
  | keep h₁ h₂ => exact .keep (by rw [hs]; exact h₁) (hrt.trans h₂)
  | down h₁ h₂ => exact .down (hs.trans h₁) (hrt.trans h₂)
  | up h₁ h₂ h₃ => exact .up h₁ (hs.trans h₂) (hrt.trans h₃)

omit [Journal ω] in
theorem Handover.refl (n : Node ω) : Handover n n := .keep Iff.rfl rfl

theorem handover_becomeFollowerLocked (n : Node ω) (t : Nat) :
    Handover n (n.becomeFollowerLocked t) := by
  have hrt := becomeFollowerLocked_rt n t
  have hs := n.becomeFollowerLocked_state t
  by_cases hl : n.state = .leader
  · refine .down hs ?_
    rw [hrt, if_pos hl, Runtime.leases_resetElectionTimerLocked, Runtime.leases_stopLeading]
  · refine .keep (by rw [hs]; simp [hl]) ?_
    rw [hrt, if_neg hl, Runtime.leases_resetElectionTimerLocked]

theorem handover_seeTerm (n : Node ω) (t : Nat) : Handover n (n.seeTerm t) := by
  unfold Node.seeTerm
  split
  · exact handover_becomeFollowerLocked n t
  · exact Handover.refl n

theorem handover_handleRequestVote (n : Node ω) (args : RequestVoteArgs) :
    Handover n (n.handleRequestVote args).1 := by
  have hsee := handover_seeTerm n args.term
  rcases n.handleRequestVote_cases args with ⟨_, he, _⟩ | ⟨_, _, _, he⟩
  · rw [he]; exact hsee
  · rw [he, Node.persist_node]
    exact hsee.congr rfl (Runtime.leases_resetElectionTimerLocked _)

theorem handover_handleAppendEntries (n : Node ω) (args : AppendEntriesArgs) :
    Handover n (n.handleAppendEntries args).1 := by
  unfold Node.handleAppendEntries
  split
  · exact Handover.refl n
  · obtain ⟨log, c, d, hc⟩ := (n.acceptLeader args).checkAndAppend_eq args
    have haccept : Handover n (n.acceptLeader args) := by
      rcases n.acceptLeader_cases args with he | he
      · rw [he]
        refine .down rfl ?_
        dsimp only
        rw [Runtime.leases_resetElectionTimerLocked, Runtime.leases_stopLeading]
      · rw [he]
        exact (handover_seeTerm n args.term).congr rfl (Runtime.leases_resetElectionTimerLocked _)
    rw [hc]
    exact haccept.congr rfl rfl

theorem handover_handleAppendReply (n : Node ω) (t : Nat) (p : NodeID) (es : List LogEntry)
    (r : AppendEntriesReply) : Handover n (n.handleAppendReply t p es r) := by
  rcases n.handleAppendReply_cases t p es r with ⟨_, _, he⟩ | ⟨ni, mi, c, _, _, he⟩
  · rw [he]; exact handover_becomeFollowerLocked n r.term
  · rw [he]; exact .keep Iff.rfl rfl

theorem handover_handleVoteReply (n : Node ω) (t : Nat) (p : NodeID) (r : RequestVoteReply) :
    Handover n (n.handleVoteReply t p r) := by
  have hv := n.voteReplied t p r
  generalize n.handleVoteReply t p r = n' at hv ⊢
  cases hv with
  | idle _ => exact Handover.refl n
  | stepDown _ _ _ => exact handover_becomeFollowerLocked n r.term
  | counted _ _ _ _ _ _ => exact .keep Iff.rfl rfl
  | elected _ hc _ _ _ _ =>
      refine .up (by simp [hc]) rfl ?_
      have hstop := n.rt.leases_onTimer n.rt.electionTimer fun tm => tm.stop.1
      have hctx : (n.rt.onTimer n.rt.electionTimer fun tm => tm.stop.1).contexts = n.rt.contexts :=
        congrArg Prod.fst hstop
      unfold Node.becomeLeaderLocked Runtime.stopElectionTimer Runtime.newHeartbeatTimer
        Runtime.newContext Runtime.leases
      dsimp only
      rw [hctx]

theorem handover_submitCommand (n : Node ω) (command : Command) :
    Handover n (n.submitCommand command).1 := by
  rcases n.submitCommand_cases command with ⟨_, he⟩ | ⟨_, d, he⟩
  · rw [he]; exact Handover.refl n
  · rw [he]; exact .keep Iff.rfl rfl

end Handover

/-! ## A leader's office -/

/-- At most one generation of replication goroutines is running, and only of a leader. -/
structure Node.Reined (n : Node ω) : Prop where
  leashed : n.rt.Leashed
  halted : n.state ≠ .leader → n.rt.Halted

omit [Journal ω] in
theorem reined_handover {n n' : Node ω} (h : n.Reined) (hh : Handover n n') : n'.Reined := by
  have hsplit : ∀ {rt rt' : Runtime}, rt'.leases = rt.leases →
      rt'.contexts = rt.contexts ∧ rt'.replicateCancel = rt.replicateCancel :=
    fun he => ⟨congrArg Prod.fst he, congrArg Prod.snd he⟩
  cases hh with
  | keep hst he =>
      obtain ⟨hctx, hcancel⟩ := hsplit he
      constructor
      · unfold Runtime.Leashed; rw [hctx, hcancel]; exact h.leashed
      · intro hl
        unfold Runtime.Halted
        rw [hctx]
        exact h.halted fun hl' => hl (hst.mpr hl')
  | down _ he =>
      obtain ⟨hctx, _⟩ := hsplit he
      have hhalt : n'.rt.Halted := by
        unfold Runtime.Halted
        rw [hctx]
        exact Runtime.halted_cancelReplication h.leashed
      refine ⟨?_, fun _ => hhalt⟩
      intro c hc
      exact absurd (hhalt _ (List.mem_of_getElem? hc)) (by simp)
  | up hnl hl he =>
      obtain ⟨hctx, hcancel⟩ := hsplit he
      refine ⟨?_, fun hnl' => absurd hl hnl'⟩
      intro c hc
      rw [hctx] at hc
      rw [hcancel]
      -- the only one that runs is the new one
      rcases Nat.lt_trichotomy c n.rt.contexts.length with hlt | rfl | hgt
      · have hold : n.rt.contexts[c]? = some false := by
          rw [← hc]; exact (List.getElem?_append_left hlt).symm
        exact absurd (h.halted hnl _ (List.mem_of_getElem? hold)) (by simp)
      · rfl
      · have hlen := (List.getElem?_eq_some_iff.mp hc).1
        rw [Runtime.newContext, List.length_append, List.length_singleton] at hlen
        omega

namespace Looping

/-- The section of the vote reply would make the node leader. -/
def Elects (n : Node ω) (t : Nat) (p : NodeID) (r : RequestVoteReply) : Prop :=
  n.currentTerm = t ∧ n.state = .candidate ∧ r.term ≤ n.currentTerm ∧ r.voteGranted = true ∧
    p ∉ n.votesReceived ∧ n.majority ≤ n.votes + 1

omit [Journal ω] in
instance (n : Node ω) (t : Nat) (p : NodeID) (r : RequestVoteReply) : Decidable (Elects n t p r) := by
  unfold Elects; infer_instance

/-- No vote completes an election after the loop has decided to start the next one. -/
def Undisturbed (s : Looping ω) : LoopEvent → Prop
  | .voteReply t p r => s.loop = .electing → ¬ Elects s.node t p r
  | _ => True

omit [Journal ω] in
instance (s : Looping ω) (ev : LoopEvent) : Decidable (s.Undisturbed ev) := by
  cases ev <;> unfold Undisturbed <;> infer_instance

end Looping

/-- The sections of the loop and the expiry of timers, as opposed to the handlers. -/
def LoopEvent.own : LoopEvent → Bool
  | .choose | .receive | .readState | .startElection | .sendHeartbeats | .rearm | .fire _ => true
  | _ => false

/-- What holds as long as no election is completed too late. -/
structure InOffice (e : Nat) (s : Looping ω) : Prop where
  election : s.node.rt.electionTimer = some e
  election_lt : e < s.node.rt.timers.length
  heartbeat : ∀ h, s.node.rt.heartbeatTimer = some h → h < s.node.rt.timers.length ∧ h ≠ e
  leading : s.node.state = .leader → ∃ h, s.node.rt.heartbeatTimer = some h
  reined : s.node.Reined
  electing : s.loop = .electing → s.node.state ≠ .leader

section Office

variable {e : Nat} {s s' : Looping ω} {ev : LoopEvent} {n' : Node ω} {l' : Loop}

omit [Journal ω] in
/-- Sections of the loop do not move timers or goroutines about. -/
theorem inOffice_own (h : InOffice e s) (hst : n'.state = .leader ↔ s.node.state = .leader)
    (hsame : Runtime.SamePlaces s.node.rt n'.rt) (hle : n'.rt.leases = s.node.rt.leases)
    (hel : l' = .electing → n'.state ≠ .leader) : InOffice e { node := n', loop := l' } where
  election := hsame.election.trans h.election
  election_lt := by rw [hsame.length]; exact h.election_lt
  heartbeat := by rw [hsame.heartbeat, hsame.length]; exact h.heartbeat
  leading hl := by rw [hsame.heartbeat]; exact h.leading (hst.mp hl)
  reined := reined_handover h.reined (.keep hst hle)
  electing := hel

omit [Journal ω] in
theorem inOffice_handler (h : InOffice e s) (heff : Effect e s.node n')
    (hh : Handover s.node n') (hel : s.loop = .electing → n'.state ≠ .leader) :
    InOffice e { s with node := n' } := by
  obtain ⟨helec, hlt, hhb⟩ := heff.places h.election h.election_lt h.heartbeat
  refine ⟨helec, hlt, hhb, ?_, reined_handover h.reined hh, hel⟩
  intro hl
  cases heff with
  | keep hst hsame _ =>
      obtain ⟨t, ht⟩ := h.leading (hst.mp hl)
      exact ⟨t, hsame.heartbeat.trans ht⟩
  | down hst _ _ _ => exact absurd hl hst
  | up _ _ _ hfresh _ _ _ => exact ⟨_, hfresh⟩

/-- What a step can be, as far as offices go. -/
inductive Stepped (s : Looping ω) : LoopEvent → Looping ω → Prop
  | own {ev : LoopEvent} {n' : Node ω} {l' : Loop} : ev.own = true → ev ≠ .startElection →
      n'.state = s.node.state → n'.currentTerm = s.node.currentTerm →
      Runtime.SamePlaces s.node.rt n'.rt → n'.rt.leases = s.node.rt.leases →
      (l' = .electing → s.loop = .electing ∨ s.node.state ≠ .leader) →
      Stepped s ev { node := n', loop := l' }
  | election : s.loop = .electing →
      Stepped s .startElection { node := s.node.startElection.1, loop := .choosing }
  | handler {ev : LoopEvent} {n' : Node ω} : ev.own = false →
      (∀ e, s.node.rt.electionTimer = some e → e < s.node.rt.timers.length → Effect e s.node n') →
      Handover s.node n' →
      (n'.state = .leader → s.node.state = .leader ∨
        ∃ t p r, ev = .voteReply t p r ∧ Looping.Elects s.node t p r) →
      Stepped s ev { s with node := n' }

/-- A section that leaves the node alone. -/
theorem stepped_idle (s : Looping ω) {ev : LoopEvent} {l' : Loop} (ho : ev.own = true)
    (hne : ev ≠ .startElection)
    (hel : l' = .electing → s.loop = .electing ∨ s.node.state ≠ .leader) :
    Stepped s ev { s with loop := l' } :=
  .own ho hne rfl rfl (Runtime.SamePlaces.refl _) rfl hel

/-- A section that only works on one timer. -/
theorem stepped_onTimer (s : Looping ω) {ev : LoopEvent} {l' : Loop} (t : Option Nat)
    (f : Timer → Timer) (ho : ev.own = true) (hne : ev ≠ .startElection)
    (hel : l' = .electing → s.loop = .electing ∨ s.node.state ≠ .leader) :
    Stepped s ev { node := { s.node with rt := s.node.rt.onTimer t f }, loop := l' } :=
  .own ho hne rfl rfl (Runtime.samePlaces_onTimer _ _ _) (Runtime.leases_onTimer _ _ _) hel

theorem elects_of_leader {n : Node ω} {t : Nat} {p : NodeID} {r : RequestVoteReply}
    (h : (n.handleVoteReply t p r).state = .leader) : n.state = .leader ∨ Looping.Elects n t p r := by
  have hv := n.voteReplied t p r
  generalize n.handleVoteReply t p r = n' at hv h
  cases hv with
  | idle _ => exact Or.inl h
  | stepDown _ _ _ =>
      rw [Node.becomeFollowerLocked_state] at h
      exact absurd h (by simp)
  | counted _ _ _ _ _ _ => exact Or.inl h
  | elected ht hc hlow hg hp hmaj => exact Or.inr ⟨ht, hc, hlow, hg, hp, hmaj⟩

theorem stepped_of_step (hs : s.step ev = some s') : Stepped s ev s' := by
  cases Looping.steps_of_step hs with
  | park t _ _ => exact stepped_idle s rfl (by simp) (by simp)
  | sleep _ _ => exact stepped_idle s rfl (by simp) Or.inl
  | receive t _ _ => exact stepped_onTimer s _ _ rfl (by simp) (by simp)
  | readState _ =>
      refine stepped_idle s rfl (by simp) ?_
      intro hel
      right
      intro hl
      rw [if_pos hl] at hel
      exact absurd hel (by simp)
  | startElection hl => exact .election hl
  | sendHeartbeats _ => exact stepped_idle s rfl (by simp) (by simp)
  | rearm _ => exact stepped_onTimer s _ _ rfl (by simp) (by simp)
  | fire t _ => exact stepped_onTimer s _ _ rfl (by simp) Or.inl
  | voteReply t p r =>
      refine .handler rfl (fun _ he hlt => effect_handleVoteReply he hlt t p r)
        (handover_handleVoteReply _ t p r) ?_
      intro hl
      rcases elects_of_leader hl with h | h
      · exact Or.inl h
      · exact Or.inr ⟨t, p, r, rfl, h⟩
  | appendReply t p es r =>
      exact .handler rfl (fun _ he hlt => effect_handleAppendReply he hlt t p es r)
        (handover_handleAppendReply _ t p es r) fun hl => Or.inl (Node.handleAppendReply_leader hl)
  | requestVote args =>
      exact .handler rfl (fun _ he hlt => effect_handleRequestVote he hlt args)
        (handover_handleRequestVote _ args) fun hl => Or.inl (Node.handleRequestVote_leader hl)
  | appendEntries args =>
      exact .handler rfl (fun _ he hlt => effect_handleAppendEntries he hlt args)
        (handover_handleAppendEntries _ args) fun hl => Or.inl (Node.handleAppendEntries_leader hl)
  | submitCommand command =>
      refine .handler rfl (fun e _ _ => effect_submitCommand e s.node command)
        (handover_submitCommand _ command) ?_
      intro hl
      exact Or.inl ((s.node.submitCommand_state command).symm.trans hl)

theorem inOffice_step (h : InOffice e s) (hu : s.Undisturbed ev) (hs : s.step ev = some s') :
    InOffice e s' := by
  cases stepped_of_step hs with
  | own _ _ hst _ hsame hle hel =>
      refine inOffice_own h (by rw [hst]) hsame hle ?_
      intro hl'
      rw [hst]
      rcases hel hl' with hel | hnl
      · exact h.electing hel
      · exact hnl
  | election hel =>
      have hnl := h.electing hel
      refine inOffice_own h ?_ ?_ ?_ (by simp)
      · rw [Node.startElection_state]; simp [hnl]
      · rw [startElection_rt]; exact Runtime.samePlaces_resetElectionTimerLocked h.election
      · rw [startElection_rt]; exact Runtime.leases_resetElectionTimerLocked _
  | handler _ heff hh hup =>
      refine inOffice_handler h (heff e h.election h.election_lt) hh ?_
      intro hel hl
      rcases hup hl with hl | ⟨t, p, r, rfl, helects⟩
      · exact h.electing hel hl
      · exact hu hel helects

omit [Journal ω] in
theorem inOffice_init (id : NodeID) (peers : List NodeID) (wal : Option ω) (r : Replayed) :
    InOffice 0 (Looping.init id peers wal r) := by
  have hloop := loopInv_init id peers wal r
  have hstate : (Looping.init id peers wal r).node.state = .follower ∧
      (Looping.init id peers wal r).node.rt.contexts = [] := by
    obtain ⟨log, he⟩ := (Node.newNode id peers wal).replay_eq r
    unfold Looping.init
    rw [he]
    exact ⟨rfl, rfl⟩
  refine ⟨hloop.election, hloop.election_lt, hloop.heartbeat, ?_, ⟨?_, ?_⟩, ?_⟩
  · intro hl; exact absurd (hstate.1.symm.trans hl) (by simp)
  · intro c hc; rw [hstate.2] at hc; exact absurd hc (by simp)
  · intro _ x hx; rw [hstate.2] at hx; exact absurd hx (by simp)
  · intro hl; exact absurd hl (by simp [Looping.init])

theorem inOffice_run {id : NodeID} {peers : List NodeID} {wal : Option ω} {r : Replayed}
    {evs : List LoopEvent}
    (hx : Execution.exec Looping.step (Looping.init id peers wal r) evs = some s)
    (hu : Execution.Always Looping.step (fun s ev _ => s.Undisturbed ev)
      (Looping.init id peers wal r) evs) : InOffice 0 s := by
  refine Execution.Always.invariant (I := fun _ s => InOffice 0 s) (inOffice_init id peers wal r)
    ?_ hu hx
  intro _ s₁ ev s₂ _ h hP hs
  exact inOffice_step h hP hs

omit [Journal ω] in
/-- A leader that a handler deposes follows, its heartbeat timer and goroutines stopped. -/
theorem deposed_by_handler (h : InOffice e s) (heff : Effect e s.node n')
    (hh : Handover s.node n') (hl : s.node.state = .leader) (hnl : n'.state ≠ .leader) :
    n'.state = .follower ∧
      (∃ t, s.node.rt.heartbeatTimer = some t ∧ n'.rt.timers[t]? = some .idle) ∧
      n'.rt.Halted := by
  have hhalt := (reined_handover h.reined hh).halted hnl
  obtain ⟨t, ht⟩ := h.leading hl
  obtain ⟨hlt, hte⟩ := h.heartbeat t ht
  have hfollow : n'.state = .follower := by
    cases hh with
    | keep hst _ => exact absurd (hst.mpr hl) hnl
    | down hf _ => exact hf
    | up hnl' _ _ => exact absurd hl hnl'
  refine ⟨hfollow, ⟨t, ht, ?_⟩, hhalt⟩
  cases heff with
  | keep hst _ _ => exact absurd (hst.mpr hl) hnl
  | up hnl' _ _ _ _ _ _ => exact absurd hl hnl'
  | down _ hsame _ hstop =>
      have hdead := hstop hl t ht hte
      rw [← hsame.length] at hlt
      unfold Runtime.Alive at hdead
      rw [List.getElem?_eq_getElem hlt] at hdead ⊢
      cases htm : n'.rt.timers[t] with
      | idle => rfl
      | armed => rw [htm] at hdead; exact absurd (Or.inl rfl) hdead
      | fired => rw [htm] at hdead; exact absurd (Or.inr rfl) hdead

end Office

/--
**A leader never deposes itself.** In a run in which no vote completes an election
between the loop's look at the role and the election that follows it: an election is
started by a node that does not lead; no section of the loop ends a leadership or
changes the term of a leader; and a leadership that ends in a handler ends in a
follower, with the heartbeat timer and every replication goroutine stopped.
-/
theorem leader_keeps_office {id : NodeID} {peers : List NodeID} {wal : Option ω} {r : Replayed}
    {evs : List LoopEvent} {s s' : Looping ω} {ev : LoopEvent}
    (hx : Execution.exec Looping.step (Looping.init id peers wal r) evs = some s)
    (hu : Execution.Always Looping.step (fun s ev _ => s.Undisturbed ev)
      (Looping.init id peers wal r) evs) (hs : s.step ev = some s') :
    (ev = .startElection → s.node.state ≠ .leader) ∧
    (s.node.state = .leader →
      (ev.own = true →
        s'.node.state = .leader ∧ s'.node.currentTerm = s.node.currentTerm) ∧
      (s'.node.state ≠ .leader →
        s'.node.state = .follower ∧
        (∃ t, s.node.rt.heartbeatTimer = some t ∧ s'.node.rt.timers[t]? = some .idle) ∧
        ∀ x ∈ s'.node.rt.contexts, x = true)) := by
  have h := inOffice_run hx hu
  cases stepped_of_step hs with
  | own _ hne hst hterm _ _ _ =>
      refine ⟨fun he => absurd he hne, fun hl => ⟨fun _ => ⟨hst.trans hl, hterm⟩, ?_⟩⟩
      intro hnl
      exact absurd (hst.trans hl) hnl
  | election hel =>
      have hnl := h.electing hel
      exact ⟨fun _ => hnl, fun hl => absurd hl hnl⟩
  | handler ho heff hh _ =>
      refine ⟨?_, fun hl => ⟨fun ho' => absurd (ho.symm.trans ho') (by simp), ?_⟩⟩
      · rintro rfl
        exact absurd ho (by simp [LoopEvent.own])
      · exact deposed_by_handler h (heff 0 h.election h.election_lt) hh hl

/-- The leader `b` is asked for its vote in term `2`. -/
theorem leader_keeps_office_abc : ∃ s s',
    Execution.exec Looping.step startedB heartbeatEvents = some s ∧ s.node.state = .leader ∧
    s.step (.requestVote ⟨2, "c", 0, 0⟩) = some s' ∧ s'.node.state = .follower ∧
    (∃ t, s.node.rt.heartbeatTimer = some t ∧ s'.node.rt.timers[t]? = some .idle) ∧
    ∀ x ∈ s'.node.rt.contexts, x = true := by
  obtain ⟨s, hx, hl, hnl⟩ : ∃ s ∈ Execution.exec Looping.step startedB heartbeatEvents,
      s.node.state = .leader ∧ (s.node.handleRequestVote ⟨2, "c", 0, 0⟩).1.state ≠ .leader := by
    decide +kernel
  have hs : s.step (.requestVote ⟨2, "c", 0, 0⟩) = some _ := rfl
  exact ⟨s, _, hx, hl, hs, ((leader_keeps_office hx (by decide +kernel) hs).2 hl).2 hnl⟩

/-- The loop of `b` decides to start a second election; only then does the vote of `a` arrive. -/
def lateVoteEvents : List LoopEvent :=
  electionEvents ++ [.choose, .fire 0, .receive, .readState, .voteReply 1 "a" firstVote]

/--
The vote makes `b` leader of term `1`, and the election makes it a candidate of term `2`
whose heartbeat timer and replication goroutines are still running.
-/
theorem self_deposed_abc : ∃ s s',
    Execution.exec Looping.step startedB lateVoteEvents = some s ∧
    s.step .startElection = some s' ∧
    s.node.state = .leader ∧ s.node.currentTerm = 1 ∧
    s'.node.state = .candidate ∧ s'.node.currentTerm = 2 ∧
    s'.node.rt.heartbeatTimer = some 1 ∧ s'.node.rt.timers[1]? = some .armed ∧
    s'.node.rt.contexts = [false] := by
  obtain ⟨s, hx, s', hs, h⟩ : ∃ s ∈ Execution.exec Looping.step startedB lateVoteEvents,
      ∃ s' ∈ s.step .startElection, s.node.state = .leader ∧ s.node.currentTerm = 1 ∧
        s'.node.state = .candidate ∧ s'.node.currentTerm = 2 ∧
        s'.node.rt.heartbeatTimer = some 1 ∧ s'.node.rt.timers[1]? = some Timer.armed ∧
        s'.node.rt.contexts = [false] := by
    decide +kernel
  exact ⟨s, s', hx, hs, h⟩

end GammaFlow.Raft
