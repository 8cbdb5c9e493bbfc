import GammaFlow.Lib.Quorum
import GammaFlow.Raft.Cluster
import GammaFlow.Raft.NodeSpec

/-!
# What a step of the cluster can do

`act` said once (`Acts`), and then from the side of one node: it keeps its state or
runs one of its sections (`NodeStep`). Proofs about the cluster go by cases on
these, and do not unfold `act`.
-/

namespace GammaFlow.Raft

open GammaFlow.Storage

variable {ω : Type}

/-! ## Majorities -/

/-- The majorities of the cluster. -/
def Config.quorum (cfg : Config ω) : QuorumSystem NodeID := QuorumSystem.majority cfg.ids

theorem Config.length_peers (cfg : Config ω) {i : NodeID} (hi : i ∈ cfg.ids) :
    (cfg.peers i).length + 1 = cfg.ids.length := by
  rw [(cfg.peers_perm i hi).length_eq, List.length_erase_of_mem hi]
  have := List.length_pos_of_mem hi
  omega

theorem Config.mem_peers (cfg : Config ω) {i p : NodeID} (hi : i ∈ cfg.ids)
    (hp : p ∈ cfg.peers i) : p ∈ cfg.ids ∧ p ≠ i := by
  have hp' := (cfg.peers_perm i hi).mem_iff.mp hp
  exact ((List.Nodup.mem_erase_iff cfg.nodup).mp hp').symm

/-- Enough distinct members to win an election are a quorum. -/
theorem Config.isQuorum_of_majority (cfg : Config ω) {i : NodeID} (hi : i ∈ cfg.ids) {n : Node ω}
    (hpeers : n.peers = cfg.peers i) {P : NodeID → Prop} {votes : List NodeID} (hnd : votes.Nodup)
    (hvotes : ∀ p ∈ votes, p ∈ cfg.ids ∧ P p) (hmaj : votes.length ≥ n.majority) :
    cfg.quorum.IsQuorum {p | P p} := by
  refine ⟨votes, hnd, fun p hp => (hvotes p hp).1, fun p hp => (hvotes p hp).2, ?_⟩
  unfold Node.majority at hmaj
  rw [hpeers] at hmaj
  have := cfg.length_peers hi
  omega

/-! ## Steps -/

theorem setNode_ne (w : Cluster ω) (v : NodeID) (n : Node ω) {i : NodeID} (hi : i ≠ v) :
    (w.setNode v n).nodes i = w.nodes i := by
  unfold Cluster.setNode
  dsimp only
  rw [Function.update_of_ne hi]

theorem setNode_self (w : Cluster ω) (v : NodeID) (n : Node ω) :
    (w.setNode v n).nodes v = n := by
  unfold Cluster.setNode
  dsimp only
  rw [Function.update_self]

variable [Journal ω] {cfg : Config ω} {w w' : Cluster ω} {ev : Event}

/-- Everything that `act` can do, one constructor an outcome. -/
inductive Acts (cfg : Config ω) (w : Cluster ω) : Event → Cluster ω → Prop
  | startElection (i : NodeID) : i ∈ cfg.ids →
      Acts cfg w (.startElection i) { w.setNode i (w.nodes i).startElection.1 with
        voteCalls := w.voteCalls ++ (w.nodes i).startElection.1.peers.map fun p =>
          ⟨i, p, (w.nodes i).startElection.2⟩ }
  | requestVote (k : Nat) (c : VoteCall) : w.voteCalls[k]? = some c →
      Acts cfg w (.requestVote k)
        { w.setNode c.peer ((w.nodes c.peer).handleRequestVote c.args).1 with
          voteReplies := w.voteReplies ++ [(c, ((w.nodes c.peer).handleRequestVote c.args).2)] }
  | voteReply (k : Nat) (c : VoteCall) (r : RequestVoteReply) : w.voteReplies[k]? = some (c, r) →
      Acts cfg w (.voteReply k) (w.setNode c.caller
        ((w.nodes c.caller).handleVoteReply c.args.term c.peer r))
  | sendHeartbeats (i : NodeID) : i ∈ cfg.ids → (w.nodes i).state = .leader →
      Acts cfg w (.sendHeartbeats i) { w with
        heartbeats := w.heartbeats ++ (w.nodes i).peers.map fun p =>
          ⟨i, p, (w.nodes i).currentTerm, (w.nodes i).id, (w.nodes i).commitIndex⟩ }
  | readHeartbeat (k : Nat) (hb : Heartbeat) : w.heartbeats[k]? = some hb →
      Acts cfg w (.readHeartbeat k) { w with
        appendCalls := w.appendCalls ++ [⟨hb.caller, hb.peer,
          (w.nodes hb.caller).buildRequest hb.peer hb.term hb.leaderID hb.commitIndex⟩] }
  | replicateLog (i p : NodeID) : i ∈ cfg.ids → p ∈ (w.nodes i).peers →
      (w.nodes i).state = .leader →
      Acts cfg w (.replicateLog i p) { w with
        appendCalls := w.appendCalls ++ [⟨i, p, (w.nodes i).buildRequest p
          (w.nodes i).currentTerm (w.nodes i).id (w.nodes i).commitIndex⟩] }
  | appendEntries (k : Nat) (c : AppendCall) : w.appendCalls[k]? = some c →
      Acts cfg w (.appendEntries k)
        { w.setNode c.peer ((w.nodes c.peer).handleAppendEntries c.args).1 with
          appendReplies :=
            w.appendReplies ++ [(c, ((w.nodes c.peer).handleAppendEntries c.args).2)] }
  | appendReply (k : Nat) (c : AppendCall) (r : AppendEntriesReply) :
      w.appendReplies[k]? = some (c, r) →
      Acts cfg w (.appendReply k) (w.setNode c.caller
        ((w.nodes c.caller).handleAppendReply c.args.term c.peer c.args.entries r))
  | submitted (i : NodeID) (command : Command) (index term : Nat) : i ∈ cfg.ids →
      ((w.nodes i).submitCommand command).2 = .appended index term →
      Acts cfg w (.submitCommand i command) { w.setNode i ((w.nodes i).submitCommand command).1 with
        submits := w.submits ++ [⟨i, command, index, term⟩] }
  | refused (i : NodeID) (command : Command) : i ∈ cfg.ids →
      Acts cfg w (.submitCommand i command) (w.setNode i ((w.nodes i).submitCommand command).1)
  | pollDone (k : Nat) (s : Submit) : w.submits[k]? = some s → (∀ r ∈ w.returned, r.1 ≠ k) →
      (w.nodes s.node).pollSubmit s.index s.term = .done →
      Acts cfg w (.pollSubmit k) { w with returned := w.returned ++ [(k, .success)] }
  | pollFailed (k : Nat) : (∀ r ∈ w.returned, r.1 ≠ k) →
      Acts cfg w (.pollSubmit k) { w with returned := w.returned ++ [(k, .errNotLeader)] }
  | pollWaiting (k : Nat) : Acts cfg w (.pollSubmit k) w
  | timeoutSubmit (k : Nat) : (∀ r ∈ w.returned, r.1 ≠ k) →
      Acts cfg w (.timeoutSubmit k) { w with returned := w.returned ++ [(k, .errTimeout)] }
  | collectApply (i : NodeID) (task : List LogEntry × Nat) : w.applying i = none →
      (w.nodes i).collectApply = some task →
      Acts cfg w (.collectApply i) { w with applying := Function.update w.applying i (some task) }
  | sendApply (i : NodeID) (e : LogEntry) (es : List LogEntry) (newLastApplied : Nat) :
      w.applying i = some (e :: es, newLastApplied) →
      Acts cfg w (.sendApply i) { w with
        applying := Function.update w.applying i (some (es, newLastApplied))
        applyCh := Function.update w.applyCh i (w.applyCh i ++ [e]) }
  | finishApply (i : NodeID) (newLastApplied : Nat) : w.applying i = some ([], newLastApplied) →
      Acts cfg w (.finishApply i)
        { w.setNode i { w.nodes i with lastApplied := newLastApplied } with
          applying := Function.update w.applying i none }

/-- **What a step can do.** -/
theorem acts_of_act (hs : w.act cfg ev = some w') : Acts cfg w ev w' := by
  cases ev with
  | startElection j =>
      rw [Cluster.act] at hs
      split at hs
      · rename_i hj
        obtain rfl := Option.some.inj hs
        exact .startElection j hj
      · exact absurd hs (by simp)
  | requestVote k =>
      rw [Cluster.act, Option.map_eq_some_iff] at hs
      obtain ⟨c, hc, rfl⟩ := hs
      exact .requestVote k c hc
  | voteReply k =>
      rw [Cluster.act, Option.map_eq_some_iff] at hs
      obtain ⟨⟨c, r⟩, hc, rfl⟩ := hs
      exact .voteReply k c r hc
  | sendHeartbeats j =>
      rw [Cluster.act] at hs
      dsimp only at hs
      split at hs
      · rename_i hj
        obtain rfl := Option.some.inj hs
        exact .sendHeartbeats j hj.1 hj.2
      · exact absurd hs (by simp)
  | readHeartbeat k =>
      rw [Cluster.act, Option.map_eq_some_iff] at hs
      obtain ⟨hb, hk, rfl⟩ := hs
      exact .readHeartbeat k hb hk
  | replicateLog j p =>
      rw [Cluster.act] at hs
      split at hs
      · rename_i hj
        obtain rfl := Option.some.inj hs
        exact .replicateLog j p hj.1 hj.2.1 hj.2.2.1
      · exact absurd hs (by simp)
  | appendEntries k =>
      rw [Cluster.act, Option.map_eq_some_iff] at hs
      obtain ⟨c, hc, rfl⟩ := hs
      exact .appendEntries k c hc
  | appendReply k =>
      rw [Cluster.act, Option.map_eq_some_iff] at hs
      obtain ⟨⟨c, r⟩, hc, rfl⟩ := hs
      exact .appendReply k c r hc
  | submitCommand j command =>
      rw [Cluster.act] at hs
      split at hs
      · rename_i hj
        dsimp only at hs
        split at hs
        · rename_i index term hres
          obtain rfl := Option.some.inj hs
          exact .submitted j command index term hj hres
        · obtain rfl := Option.some.inj hs
          exact .refused j command hj
      · exact absurd hs (by simp)
  | pollSubmit k =>
      rw [Cluster.act] at hs
      split at hs
      · exact absurd hs (by simp)
      · rename_i s hk
        split at hs
        · exact absurd hs (by simp)
        · rename_i hr
          have hr' : ∀ r ∈ w.returned, r.1 ≠ k := fun r h h' => hr ⟨r, h, h'⟩
          split at hs
          · obtain rfl := Option.some.inj hs; exact .pollFailed k hr'
          · rename_i hd
            obtain rfl := Option.some.inj hs
            exact .pollDone k s hk hr' hd
          · obtain rfl := Option.some.inj hs; exact .pollWaiting k
  | timeoutSubmit k =>
      rw [Cluster.act] at hs
      split at hs
      · rename_i hk
        obtain rfl := Option.some.inj hs
        exact .timeoutSubmit k fun r h h' => hk.2 ⟨r, h, h'⟩
      · exact absurd hs (by simp)
  | collectApply j =>
      rw [Cluster.act] at hs
      split at hs
      · exact absurd hs (by simp)
      · rename_i hj
        rw [Option.map_eq_some_iff] at hs
        obtain ⟨task, ht, rfl⟩ := hs
        exact .collectApply j task hj ht
  | sendApply j =>
      rw [Cluster.act] at hs
      split at hs
      · rename_i e es m hj
        obtain rfl := Option.some.inj hs
        exact .sendApply j e es m hj
      · exact absurd hs (by simp)
  | finishApply j =>
      rw [Cluster.act] at hs
      split at hs
      · rename_i m hj
        obtain rfl := Option.some.inj hs
        exact .finishApply j m hj
      · exact absurd hs (by simp)

/-! ## One node -/

/-- The sections a node `i` may run, by the event that runs them, and its state afterwards. -/
inductive NodeStep (cfg : Config ω) (w : Cluster ω) (i : NodeID) : Event → Node ω → Prop
  | startElection : i ∈ cfg.ids → NodeStep cfg w i (.startElection i) (w.nodes i).startElection.1
  | requestVote (k : Nat) (c : VoteCall) : w.voteCalls[k]? = some c → c.peer = i →
      NodeStep cfg w i (.requestVote k) ((w.nodes i).handleRequestVote c.args).1
  | voteReply (k : Nat) (c : VoteCall) (r : RequestVoteReply) :
      w.voteReplies[k]? = some (c, r) → c.caller = i →
      NodeStep cfg w i (.voteReply k) ((w.nodes i).handleVoteReply c.args.term c.peer r)
  | appendEntries (k : Nat) (c : AppendCall) : w.appendCalls[k]? = some c → c.peer = i →
      NodeStep cfg w i (.appendEntries k) ((w.nodes i).handleAppendEntries c.args).1
  | appendReply (k : Nat) (c : AppendCall) (r : AppendEntriesReply) :
      w.appendReplies[k]? = some (c, r) → c.caller = i →
      NodeStep cfg w i (.appendReply k)
        ((w.nodes i).handleAppendReply c.args.term c.peer c.args.entries r)
  | submitCommand (command : Command) : i ∈ cfg.ids →
      NodeStep cfg w i (.submitCommand i command) ((w.nodes i).submitCommand command).1
  | finishApply (newLastApplied : Nat) : w.applying i = some ([], newLastApplied) →
      NodeStep cfg w i (.finishApply i) { w.nodes i with lastApplied := newLastApplied }

theorem nodeStep_of_setNode {v : NodeID} {n : Node ω} (hn : w'.nodes = (w.setNode v n).nodes)
    (hst : NodeStep cfg w v ev n) (i : NodeID) :
    w'.nodes i = w.nodes i ∨ NodeStep cfg w i ev (w'.nodes i) := by
  rw [hn]
  by_cases hi : i = v
  · rw [hi, setNode_self]; exact Or.inr hst
  · exact Or.inl (setNode_ne w v n hi)

/-- **A node keeps its state or runs one of its sections.** -/
theorem act_nodes (hs : w.act cfg ev = some w') (i : NodeID) :
    w'.nodes i = w.nodes i ∨ NodeStep cfg w i ev (w'.nodes i) := by
  cases acts_of_act hs with
  | startElection j hj => exact nodeStep_of_setNode rfl (.startElection hj) i
  | requestVote k c hc => exact nodeStep_of_setNode rfl (.requestVote k c hc rfl) i
  | voteReply k c r hc => exact nodeStep_of_setNode rfl (.voteReply k c r hc rfl) i
  | appendEntries k c hc => exact nodeStep_of_setNode rfl (.appendEntries k c hc rfl) i
  | appendReply k c r hc => exact nodeStep_of_setNode rfl (.appendReply k c r hc rfl) i
  | submitted j command index term hj _ =>
      exact nodeStep_of_setNode rfl (.submitCommand command hj) i
  | refused j command hj => exact nodeStep_of_setNode rfl (.submitCommand command hj) i
  | finishApply j m hj => exact nodeStep_of_setNode rfl (.finishApply m hj) i
  | _ => exact Or.inl rfl

/-! ## The messages of elections -/

/-- Vote requests are sent by elections only. -/
theorem act_voteCalls (hs : w.act cfg ev = some w') :
    w'.voteCalls = w.voteCalls ∨ ∃ i ∈ cfg.ids, ev = .startElection i ∧
      w'.voteCalls = w.voteCalls ++ (w.nodes i).startElection.1.peers.map fun p =>
        (⟨i, p, (w.nodes i).startElection.2⟩ : VoteCall) := by
  cases acts_of_act hs with
  | startElection i hi => exact Or.inr ⟨i, hi, rfl, rfl⟩
  | _ => exact Or.inl rfl

/-- Vote replies come from the section that cast, or refused, the vote. -/
theorem act_voteReplies (hs : w.act cfg ev = some w') :
    w'.voteReplies = w.voteReplies ∨ ∃ k c, ev = .requestVote k ∧ w.voteCalls[k]? = some c ∧
      w'.nodes c.peer = ((w.nodes c.peer).handleRequestVote c.args).1 ∧
      w'.voteReplies = w.voteReplies ++ [(c, ((w.nodes c.peer).handleRequestVote c.args).2)] := by
  cases acts_of_act hs with
  | requestVote k c hc => exact Or.inr ⟨k, c, rfl, hc, setNode_self _ _ _, rfl⟩
  | _ => exact Or.inl rfl

/-! ## The messages of replication -/

/-- A heartbeat that a leader captures for one of its peers. -/
def Node.heartbeat (n : Node ω) (i p : NodeID) : Heartbeat :=
  ⟨i, p, n.currentTerm, n.id, n.commitIndex⟩

/-- The request that `n` builds of a captured heartbeat. -/
def Node.request (n : Node ω) (hb : Heartbeat) : AppendCall :=
  ⟨hb.caller, hb.peer, n.buildRequest hb.peer hb.term hb.leaderID hb.commitIndex⟩

/-- Heartbeats are captured by leaders. -/
theorem mem_heartbeats (hs : w.act cfg ev = some w') {hb : Heartbeat} (h : hb ∈ w'.heartbeats) :
    hb ∈ w.heartbeats ∨ ∃ i p, i ∈ cfg.ids ∧ (w.nodes i).state = .leader ∧
      p ∈ (w.nodes i).peers ∧ hb = (w.nodes i).heartbeat i p := by
  cases acts_of_act hs with
  | sendHeartbeats i hi hl =>
      rcases List.mem_append.mp h with h | h
      · exact Or.inl h
      · obtain ⟨p, hp, rfl⟩ := List.mem_map.mp h
        exact Or.inr ⟨i, p, hi, hl, hp, rfl⟩
  | _ => exact Or.inl h

/-- A request is built of a heartbeat captured before, or of one that a leader captures now. -/
theorem mem_appendCalls (hs : w.act cfg ev = some w') {c : AppendCall} (h : c ∈ w'.appendCalls) :
    c ∈ w.appendCalls ∨
      (∃ k hb, ev = .readHeartbeat k ∧ w.heartbeats[k]? = some hb ∧
        c = (w.nodes hb.caller).request hb) ∨
      ∃ i p, i ∈ cfg.ids ∧ (w.nodes i).state = .leader ∧ p ∈ (w.nodes i).peers ∧
        c = (w.nodes i).request ((w.nodes i).heartbeat i p) := by
  cases acts_of_act hs with
  | readHeartbeat k hb hk =>
      rcases List.mem_append.mp h with h | h
      · exact Or.inl h
      · exact Or.inr (Or.inl ⟨k, hb, rfl, hk, List.mem_singleton.mp h⟩)
  | replicateLog i p hi hp hl =>
      rcases List.mem_append.mp h with h | h
      · exact Or.inl h
      · exact Or.inr (Or.inr ⟨i, p, hi, hl, hp, List.mem_singleton.mp h⟩)
  | _ => exact Or.inl h

/-- Replies come from the section that handled the request. -/
theorem mem_appendReplies (hs : w.act cfg ev = some w') {cr : AppendCall × AppendEntriesReply}
    (h : cr ∈ w'.appendReplies) : cr ∈ w.appendReplies ∨ ∃ c ∈ w.appendCalls,
      cr = (c, ((w.nodes c.peer).handleAppendEntries c.args).2) := by
  cases acts_of_act hs with
  | appendEntries k c hc =>
      rcases List.mem_append.mp h with h | h
      · exact Or.inl h
      · exact Or.inr ⟨c, List.mem_of_getElem? hc, List.mem_singleton.mp h⟩
  | _ => exact Or.inl h

/-! ## Sections that leave the log alone -/

namespace Node

/-- The sections of elections and replies touch neither the log nor what was applied of it. -/
structure Quiet (n n' : Node ω) : Prop where
  id : n'.id = n.id
  peers : n'.peers = n.peers
  log : n'.log = n.log
  lastApplied : n'.lastApplied = n.lastApplied

omit [Journal ω] in
theorem Quiet.refl (n : Node ω) : Quiet n n := ⟨rfl, rfl, rfl, rfl⟩

theorem quiet_startElection (n : Node ω) : Quiet n n.startElection.1 := by
  obtain ⟨rt, wal, he, _⟩ := n.startElection_eq
  rw [he]; exact ⟨rfl, rfl, rfl, rfl⟩

theorem quiet_becomeFollowerLocked (n : Node ω) (t : Nat) : Quiet n (n.becomeFollowerLocked t) := by
  obtain ⟨rt, wal, he⟩ := n.becomeFollowerLocked_eq t
  rw [he]; exact ⟨rfl, rfl, rfl, rfl⟩

theorem quiet_seeTerm (n : Node ω) (t : Nat) : Quiet n (n.seeTerm t) := by
  unfold seeTerm
  split
  · exact n.quiet_becomeFollowerLocked t
  · exact Quiet.refl n

theorem quiet_handleRequestVote (n : Node ω) (args : RequestVoteArgs) :
    Quiet n (n.handleRequestVote args).1 := by
  have h := n.quiet_seeTerm args.term
  obtain ⟨v, rt, wal, he⟩ := n.handleRequestVote_eq args
  rw [he]
  exact ⟨h.id, h.peers, h.log, h.lastApplied⟩

theorem quiet_handleVoteReply (n : Node ω) (t : Nat) (p : NodeID) (r : RequestVoteReply) :
    Quiet n (n.handleVoteReply t p r) := by
  have h := n.voteReplied t p r
  generalize n.handleVoteReply t p r = n' at h ⊢
  cases h with
  | idle _ => exact Quiet.refl n
  | stepDown _ _ _ => exact n.quiet_becomeFollowerLocked r.term
  | counted _ _ _ _ _ _ => exact ⟨rfl, rfl, rfl, rfl⟩
  | elected _ _ _ _ _ _ => exact ⟨rfl, rfl, rfl, rfl⟩

theorem quiet_handleAppendReply (n : Node ω) (t : Nat) (p : NodeID) (es : List LogEntry)
    (r : AppendEntriesReply) : Quiet n (n.handleAppendReply t p es r) := by
  rcases n.handleAppendReply_cases t p es r with ⟨_, _, he⟩ | ⟨ni, mi, c, _, _, he⟩
  · rw [he]; exact n.quiet_becomeFollowerLocked r.term
  · rw [he]; exact ⟨rfl, rfl, rfl, rfl⟩

/-- The other sections at least leave the node who it is. -/
theorem handleAppendEntries_frame (n : Node ω) (args : AppendEntriesArgs) :
    (n.handleAppendEntries args).1.id = n.id ∧ (n.handleAppendEntries args).1.peers = n.peers ∧
      (n.handleAppendEntries args).1.lastApplied = n.lastApplied := by
  by_cases hlt : args.term < n.currentTerm
  · unfold handleAppendEntries
    rw [if_pos hlt]; exact ⟨rfl, rfl, rfl⟩
  · obtain ⟨v, vr, log, c, rt, wal, he⟩ := n.handleAppendEntries_eq args hlt
    rw [he]; exact ⟨rfl, rfl, rfl⟩

theorem submitCommand_frame (n : Node ω) (command : Command) :
    (n.submitCommand command).1.id = n.id ∧ (n.submitCommand command).1.peers = n.peers ∧
      (n.submitCommand command).1.lastApplied = n.lastApplied := by
  rcases n.submitCommand_cases command with ⟨_, he⟩ | ⟨_, wal, he⟩
  · rw [he]; exact ⟨rfl, rfl, rfl⟩
  · rw [he]; exact ⟨rfl, rfl, rfl⟩

end Node

/-! ## Roles -/

namespace Node

theorem startElection_state (n : Node ω) : n.startElection.1.state = .candidate := by
  obtain ⟨rt, wal, h, _⟩ := n.startElection_eq
  rw [h]

theorem seeTerm_leader {n : Node ω} {t : Nat} (h : (n.seeTerm t).state = .leader) :
    n.seeTerm t = n := by
  unfold seeTerm at h ⊢
  split
  · rename_i ht
    rw [if_pos ht, becomeFollowerLocked_state] at h
    exact absurd h (by simp)
  · rfl

theorem handleRequestVote_leader {n : Node ω} {args : RequestVoteArgs}
    (h : (n.handleRequestVote args).1.state = .leader) : n.state = .leader := by
  obtain ⟨v, rt, wal, he⟩ := n.handleRequestVote_eq args
  rw [he] at h
  rw [seeTerm_leader h] at h
  exact h

theorem handleAppendEntries_leader {n : Node ω} {args : AppendEntriesArgs}
    (h : (n.handleAppendEntries args).1.state = .leader) : n.state = .leader := by
  by_cases hlt : args.term < n.currentTerm
  · unfold handleAppendEntries at h
    rw [if_pos hlt] at h; exact h
  · obtain ⟨v, vr, log, c, rt, wal, he⟩ := n.handleAppendEntries_eq args hlt
    rw [he] at h
    exact absurd h (by simp)

theorem handleAppendReply_leader {n : Node ω} {t : Nat} {p : NodeID} {es : List LogEntry}
    {r : AppendEntriesReply} (h : (n.handleAppendReply t p es r).state = .leader) :
    n.state = .leader := by
  rcases n.handleAppendReply_cases t p es r with ⟨hs, _⟩ | ⟨ni, mi, c, _, _, he⟩
  · exact hs
  · rw [he] at h; exact h

theorem submitCommand_state (n : Node ω) (command : Command) :
    (n.submitCommand command).1.state = n.state := by
  rcases n.submitCommand_cases command with ⟨_, he⟩ | ⟨_, wal, he⟩
  · rw [he]
  · rw [he]

/-- A vote reply makes a leader only of a candidate of that term, with enough votes. -/
theorem handleVoteReply_leader {n : Node ω} {t : Nat} {p : NodeID} {r : RequestVoteReply}
    (hn : n.state ≠ .leader) (h : (n.handleVoteReply t p r).state = .leader) :
    n.state = .candidate ∧ n.currentTerm = t ∧ r.voteGranted = true ∧ p ∉ n.votesReceived ∧
      n.votes + 1 ≥ n.majority ∧ n.handleVoteReply t p r = { n with
        votesReceived := n.votesReceived ++ [p], votes := n.votes + 1 }.becomeLeaderLocked := by
  have hv := n.voteReplied t p r
  generalize n.handleVoteReply t p r = n' at hv h ⊢
  cases hv with
  | idle _ => exact absurd h hn
  | stepDown _ _ _ =>
      rw [becomeFollowerLocked_state] at h
      exact absurd h (by simp)
  | counted _ _ _ _ _ _ => exact absurd h hn
  | elected ht hc _ hg hp hmaj => exact ⟨hc, ht, hg, hp, hmaj, rfl⟩

/-- A reply section that raises the commit index leaves the term alone. -/
theorem handleAppendReply_term_of_commit {n : Node ω} {t : Nat} {p : NodeID}
    {es : List LogEntry} {r : AppendEntriesReply}
    (h : n.commitIndex < (n.handleAppendReply t p es r).commitIndex) :
    (n.handleAppendReply t p es r).currentTerm = n.currentTerm := by
  rcases n.handleAppendReply_cases t p es r with ⟨_, _, he⟩ | ⟨ni, mi, c, _, _, he⟩
  · obtain ⟨rt, wal, he'⟩ := n.becomeFollowerLocked_eq r.term
    rw [he, he'] at h
    exact absurd h (lt_irrefl _)
  · rw [he]

end Node

/-- **A node enters leadership only on a vote reply.** -/
theorem enters_leader {i : NodeID} (hs : w.act cfg ev = some w')
    (h : (w.nodes i).state ≠ .leader) (h' : (w'.nodes i).state = .leader) :
    ∃ k c r, ev = .voteReply k ∧ w.voteReplies[k]? = some (c, r) ∧ c.caller = i ∧
      w'.nodes i = (w.nodes i).handleVoteReply c.args.term c.peer r := by
  rcases act_nodes hs i with heq | hst
  · rw [heq] at h'; exact absurd h' h
  · generalize hn : w'.nodes i = n' at hst h'
    cases hst with
    | startElection hi => rw [Node.startElection_state] at h'; exact absurd h' (by simp)
    | requestVote k c hc hp => exact absurd (Node.handleRequestVote_leader h') h
    | voteReply k c r hc hp => exact ⟨k, c, r, rfl, hc, hp, rfl⟩
    | appendEntries k c hc hp => exact absurd (Node.handleAppendEntries_leader h') h
    | appendReply k c r hc hp => exact absurd (Node.handleAppendReply_leader h') h
    | submitCommand command hi => rw [Node.submitCommand_state] at h'; exact absurd h' h
    | finishApply k hk => exact absurd h' h

/-- What a step may do to a leader that stays one, as far as its log and `nextIndex` go. -/
inductive LeaderStep (w : Cluster ω) (i : NodeID) : Node ω → Prop
  | idle {n' : Node ω} : n'.peers = (w.nodes i).peers → n'.log = (w.nodes i).log →
      n'.nextIndex = (w.nodes i).nextIndex → LeaderStep w i n'
  | reply (c : AppendCall) (r : AppendEntriesReply) : (c, r) ∈ w.appendReplies → c.caller = i →
      LeaderStep w i ((w.nodes i).handleAppendReply c.args.term c.peer c.args.entries r)
  | append (command : Command) : LeaderStep w i ((w.nodes i).submitCommand command).1

/-- **A leader that stays one reads a reply, appends a command, or does nothing.** -/
theorem leaderStep_of_act {i : NodeID} (hs : w.act cfg ev = some w')
    (hl : (w.nodes i).state = .leader) (hl' : (w'.nodes i).state = .leader) :
    LeaderStep w i (w'.nodes i) := by
  rcases act_nodes hs i with heq | hst
  · rw [heq]; exact .idle rfl rfl rfl
  generalize w'.nodes i = n' at hst hl' ⊢
  cases hst with
  | startElection _ =>
      rw [Node.startElection_state] at hl'
      exact absurd hl' (by simp)
  | requestVote _ c _ _ =>
      obtain ⟨v, rt, d, he⟩ := (w.nodes i).handleRequestVote_eq c.args
      rw [he] at hl' ⊢
      rw [Node.seeTerm_leader hl']
      exact .idle rfl rfl rfl
  | voteReply _ c r _ _ =>
      -- only a candidate counts votes
      have hsame : (w.nodes i).handleVoteReply c.args.term c.peer r = w.nodes i := by
        unfold Node.handleVoteReply
        rw [if_pos (Or.inr (by rw [hl]; simp))]
      rw [hsame]
      exact .idle rfl rfl rfl
  | appendEntries _ c _ _ =>
      by_cases hlt : c.args.term < (w.nodes i).currentTerm
      · unfold Node.handleAppendEntries
        rw [if_pos hlt]
        exact .idle rfl rfl rfl
      · obtain ⟨v, vr, log, cm, rt, d, he⟩ := (w.nodes i).handleAppendEntries_eq c.args hlt
        rw [he] at hl'
        exact absurd hl' (by simp)
  | appendReply _ c r hr hc => exact .reply c r (List.mem_of_getElem? hr) hc
  | submitCommand command _ => exact .append command
  | finishApply m _ => exact .idle rfl rfl rfl

end GammaFlow.Raft
