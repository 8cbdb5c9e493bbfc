import GammaFlow.Lib.Consensus.Commit
import GammaFlow.Raft.ClusterSpec
import GammaFlow.Raft.Merge

/-!
# The relation between the cluster and the abstract protocol

`Sim cfg w S`: the cluster state `w` implements the abstract state `S`. For each
node, its term, log and commit index are the abstract ones and its volatile
counters are justified by the history (`NodeSim`). For each message, the history
holds what the message speaks of: a request was built from a snapshot, a success
was an acknowledgement, a granted vote was a vote (the `…OK` predicates).

History only grows, so a message that was justified stays justified, and a node
that did not act stays related. `Sim.next` collects this: after a step of node `v`
only `v` itself and the messages it just sent need an argument.
-/

namespace GammaFlow.Raft

open GammaFlow.Storage
open GammaFlow.Consensus (Le Frame Inv Reign)

/-- The abstract protocol state over the cluster's own nodes and entries. -/
abbrev Abs := Consensus.State NodeID LogEntry

variable {ω : Type}

/-! ## Nodes -/

/-- Node `i` of the cluster is in the state that `S` says, and can justify what it counts. -/
structure NodeSim (cfg : Config ω) (S : Abs) (i : NodeID) (n : Node ω) : Prop where
  id : n.id = i
  peers : n.peers = cfg.peers i
  term : S.term i = n.currentTerm
  log : S.log i = n.log.body
  commit : S.commit i = n.commitIndex
  /-- `votedFor` remembers the vote of the current term. -/
  voted : ∀ X m, (i, n.currentTerm, X, m) ∈ S.votes → n.votedFor = X
  camp : n.state = .candidate → (i, n.currentTerm, n.log.body) ∈ S.camps ∧
    ∀ r, S.reign n.currentTerm = some r → r.leader ≠ i
  tally : n.state = .candidate → n.votes = n.votesReceived.length ∧ n.votesReceived.Nodup ∧
    ∀ p ∈ n.votesReceived, p ∈ cfg.ids ∧ ∃ m, (p, n.currentTerm, i, m) ∈ S.votes
  reign : n.state = .leader → ∃ b, S.reign n.currentTerm = some ⟨i, b, n.log.body⟩
  /-- A counted index is covered by an acknowledgement of the peer. -/
  matched : n.state = .leader → ∀ p ∈ n.peers, n.matchIndex p = 0 ∨
    (n.matchIndex p ≤ n.log.body.length ∧
      ∃ a, (p, n.currentTerm, a) ∈ S.acks ∧ n.log.body.take (n.matchIndex p) <+: a)
  /-- Once a leader, `nextIndex` stays positive for good. -/
  next : (∃ t r, S.reign t = some r ∧ r.leader = i) → ∀ p ∈ n.peers, 1 ≤ n.nextIndex p

/-- A node that did not act stays related. -/
theorem NodeSim.frame {cfg : Config ω} {S S' : Abs} {i v : NodeID} {n : Node ω}
    (h : NodeSim cfg S i n) (hle : Le S S') (hf : Frame v S S') (hne : i ≠ v) :
    NodeSim cfg S' i n where
  id := h.id
  peers := h.peers
  term := by rw [hf.term i hne]; exact h.term
  log := by rw [hf.log i hne]; exact h.log
  commit := by rw [hf.commit i hne]; exact h.commit
  voted X m hm := h.voted X m (hf.votes i hne _ X m hm)
  camp hs := by
    obtain ⟨hc, hno⟩ := h.camp hs
    refine ⟨hle.camps hc, ?_⟩
    intro r hr hri
    have hrv : r.leader ≠ v := by rw [hri]; exact hne
    exact hno r ((hf.reign _ r hrv).mp hr) hri
  tally hs := by
    obtain ⟨hc, hnd, hv⟩ := h.tally hs
    refine ⟨hc, hnd, ?_⟩
    intro p hp
    obtain ⟨hid, m, hm⟩ := hv p hp
    exact ⟨hid, m, hle.votes hm⟩
  reign hs := by
    obtain ⟨b, hb⟩ := h.reign hs
    exact ⟨b, (hf.reign _ ⟨i, b, n.log.body⟩ hne).mpr hb⟩
  matched hs p hp := by
    rcases h.matched hs p hp with h0 | ⟨hl, a, ha, hp⟩
    · exact Or.inl h0
    · exact Or.inr ⟨hl, a, hle.acks ha, hp⟩
  next hr := by
    obtain ⟨t, r, hr, hri⟩ := hr
    have hrv : r.leader ≠ v := by rw [hri]; exact hne
    exact h.next ⟨t, r, (hf.reign _ r hrv).mp hr, hri⟩

/-! ## Messages -/

/-- A vote request repeats a campaign. -/
structure VoteCallOK (cfg : Config ω) (S : Abs) (c : VoteCall) : Prop where
  caller : c.caller ∈ cfg.ids
  peer : c.peer ∈ cfg.peers c.caller
  candidate : c.args.candidateID = c.caller
  camp : ∃ ℓ, (c.caller, c.args.term, ℓ) ∈ S.camps ∧ c.args.lastLogIndex = ℓ.length ∧
    c.args.lastLogTerm = Consensus.lastTerm ℓ

/-- A granted vote was cast. -/
structure VoteReplyOK (cfg : Config ω) (S : Abs) (cr : VoteCall × RequestVoteReply) : Prop where
  call : VoteCallOK cfg S cr.1
  granted : cr.2.voteGranted = true → ∃ m, (cr.1.peer, cr.1.args.term, cr.1.caller, m) ∈ S.votes

/-- A heartbeat goroutine carries a capture. -/
structure HeartbeatOK (cfg : Config ω) (S : Abs) (hb : Heartbeat) : Prop where
  caller : hb.caller ∈ cfg.ids
  peer : hb.peer ∈ cfg.peers hb.caller
  leader : hb.leaderID = hb.caller
  cap : (hb.caller, hb.term, hb.commitIndex) ∈ S.caps

/-- A replication request ships a snapshot, or can never succeed. -/
structure AppendCallOK (cfg : Config ω) (S : Abs) (c : AppendCall) : Prop where
  caller : c.caller ∈ cfg.ids
  peer : c.peer ∈ cfg.peers c.caller
  leader : c.args.leaderID = c.caller
  ships : (∃ L, (c.caller, c.args.term, c.args.leaderCommit, L) ∈ S.snaps ∧ Ships L c.args) ∨
    Dud c.args

/-- A success was an acknowledgement of what the request shipped. -/
structure AppendReplyOK (cfg : Config ω) (S : Abs) (cr : AppendCall × AppendEntriesReply) :
    Prop where
  call : AppendCallOK cfg S cr.1
  success : cr.2.success = true → ∃ L a,
    (cr.1.caller, cr.1.args.term, cr.1.args.leaderCommit, L) ∈ S.snaps ∧ Ships L cr.1.args ∧
      (cr.1.peer, cr.1.args.term, a) ∈ S.acks ∧ L <+: a
  conflict : cr.2.conflictTerm > 0 → 1 ≤ cr.2.conflictIndex

/-- A submitted entry stands in the log of the reign it was submitted to. -/
def SubmitOK (cfg : Config ω) (S : Abs) (s : Submit) : Prop :=
  s.node ∈ cfg.ids ∧ 1 ≤ s.index ∧ ∃ r, S.reign s.term = some r ∧ r.leader = s.node ∧
    r.log[s.index - 1]? = some ⟨s.term, s.index, s.command⟩

section Mono

variable {cfg : Config ω} {S S' : Abs}

theorem VoteCallOK.mono {c : VoteCall} (h : VoteCallOK cfg S c) (hle : Le S S') :
    VoteCallOK cfg S' c := by
  obtain ⟨ℓ, hc, hi, ht⟩ := h.camp
  exact ⟨h.caller, h.peer, h.candidate, ℓ, hle.camps hc, hi, ht⟩

theorem VoteReplyOK.mono {cr : VoteCall × RequestVoteReply} (h : VoteReplyOK cfg S cr)
    (hle : Le S S') : VoteReplyOK cfg S' cr := by
  refine ⟨h.call.mono hle, ?_⟩
  intro hg
  obtain ⟨m, hm⟩ := h.granted hg
  exact ⟨m, hle.votes hm⟩

theorem HeartbeatOK.mono {hb : Heartbeat} (h : HeartbeatOK cfg S hb) (hle : Le S S') :
    HeartbeatOK cfg S' hb :=
  ⟨h.caller, h.peer, h.leader, hle.caps h.cap⟩

theorem AppendCallOK.mono {c : AppendCall} (h : AppendCallOK cfg S c) (hle : Le S S') :
    AppendCallOK cfg S' c := by
  refine ⟨h.caller, h.peer, h.leader, ?_⟩
  rcases h.ships with ⟨L, hL, hs⟩ | hd
  · exact Or.inl ⟨L, hle.snaps hL, hs⟩
  · exact Or.inr hd

theorem AppendReplyOK.mono {cr : AppendCall × AppendEntriesReply} (h : AppendReplyOK cfg S cr)
    (hle : Le S S') : AppendReplyOK cfg S' cr := by
  refine ⟨h.call.mono hle, ?_, h.conflict⟩
  intro hs
  obtain ⟨L, a, hL, hsh, ha, hp⟩ := h.success hs
  exact ⟨L, a, hle.snaps hL, hsh, hle.acks ha, hp⟩

theorem SubmitOK.mono {s : Submit} (h : SubmitOK cfg S s) (hle : Le S S') :
    SubmitOK cfg S' s := by
  obtain ⟨hid, hi, r, hr, hl, he⟩ := h
  obtain ⟨r', hr', hl', _, hp⟩ := hle.reign _ r hr
  refine ⟨hid, hi, r', hr', hl'.trans hl, ?_⟩
  obtain ⟨R, hR⟩ := hp
  rw [← hR, List.getElem?_append_left]
  · exact he
  · exact (List.getElem?_eq_some_iff.mp he).1

end Mono

/-! ## The relation -/

structure Sim (cfg : Config ω) (w : Cluster ω) (S : Abs) : Prop where
  inv : Inv cfg.quorum S
  camp_ids : ∀ X t ℓ, (X, t, ℓ) ∈ S.camps → X ∈ cfg.ids
  nodes : ∀ i, NodeSim cfg S i (w.nodes i)
  voteCalls : ∀ c ∈ w.voteCalls, VoteCallOK cfg S c
  voteReplies : ∀ cr ∈ w.voteReplies, VoteReplyOK cfg S cr
  heartbeats : ∀ hb ∈ w.heartbeats, HeartbeatOK cfg S hb
  appendCalls : ∀ c ∈ w.appendCalls, AppendCallOK cfg S c
  appendReplies : ∀ cr ∈ w.appendReplies, AppendReplyOK cfg S cr
  submits : ∀ s ∈ w.submits, SubmitOK cfg S s

theorem sim_init (cfg : Config ω) : Sim cfg (Cluster.init cfg) Consensus.State.init := by
  refine ⟨Consensus.inv_init, ?_, ?_, ?_, ?_, ?_, ?_, ?_, ?_⟩
  · intro X t ℓ h; exact absurd h (by simp [Consensus.State.init])
  · intro i
    refine ⟨rfl, rfl, rfl, rfl, rfl, ?_, ?_, ?_, ?_, ?_, ?_⟩
    · intro X m h; exact absurd h (by simp [Consensus.State.init])
    · intro h; exact absurd h (by simp [Cluster.init, Node.newNode, Node.start])
    · intro h; exact absurd h (by simp [Cluster.init, Node.newNode, Node.start])
    · intro h; exact absurd h (by simp [Cluster.init, Node.newNode, Node.start])
    · intro h; exact absurd h (by simp [Cluster.init, Node.newNode, Node.start])
    · intro h
      obtain ⟨t, r, hr, _⟩ := h
      exact absurd hr (by simp [Consensus.State.init])
  all_goals intro x hx; exact absurd hx (by simp [Cluster.init])

/-- After steps of node `v`: the node itself, and whatever was added to the network. -/
theorem Sim.next {cfg : Config ω} {w w' : Cluster ω} {S S' : Abs} {v : NodeID}
    (h : Sim cfg w S) (hv : v ∈ cfg.ids)
    (hs : Relation.ReflTransGen (Consensus.Step cfg.quorum v) S S')
    (hnodes : ∀ i, i ≠ v → w'.nodes i = w.nodes i)
    (hnode : NodeSim cfg S' v (w'.nodes v))
    (hvc : ∀ c ∈ w'.voteCalls, c ∈ w.voteCalls ∨ VoteCallOK cfg S' c)
    (hvr : ∀ cr ∈ w'.voteReplies, cr ∈ w.voteReplies ∨ VoteReplyOK cfg S' cr)
    (hhb : ∀ hb ∈ w'.heartbeats, hb ∈ w.heartbeats ∨ HeartbeatOK cfg S' hb)
    (hac : ∀ c ∈ w'.appendCalls, c ∈ w.appendCalls ∨ AppendCallOK cfg S' c)
    (har : ∀ cr ∈ w'.appendReplies, cr ∈ w.appendReplies ∨ AppendReplyOK cfg S' cr)
    (hsub : ∀ s ∈ w'.submits, s ∈ w.submits ∨ SubmitOK cfg S' s) : Sim cfg w' S' := by
  have hrun := Consensus.next_of_steps hs
  have hle := Consensus.le_of_steps hrun
  have hf := Consensus.frame_of_steps hs
  refine ⟨Consensus.inv_steps h.inv hrun, ?_, ?_, ?_, ?_, ?_, ?_, ?_, ?_⟩
  · intro X t ℓ hc
    by_cases hX : X = v
    · rw [hX]; exact hv
    · exact h.camp_ids X t ℓ (hf.camps X hX t ℓ hc)
  · intro i
    by_cases hi : i = v
    · rw [hi]; exact hnode
    · rw [hnodes i hi]; exact (h.nodes i).frame hle hf hi
  · intro c hc; exact (hvc c hc).elim (fun hc => (h.voteCalls c hc).mono hle) fun hc => hc
  · intro c hc; exact (hvr c hc).elim (fun hc => (h.voteReplies c hc).mono hle) fun hc => hc
  · intro c hc; exact (hhb c hc).elim (fun hc => (h.heartbeats c hc).mono hle) fun hc => hc
  · intro c hc; exact (hac c hc).elim (fun hc => (h.appendCalls c hc).mono hle) fun hc => hc
  · intro c hc; exact (har c hc).elim (fun hc => (h.appendReplies c hc).mono hle) fun hc => hc
  · intro c hc; exact (hsub c hc).elim (fun hc => (h.submits c hc).mono hle) fun hc => hc

/-- Membership in a list with one more element at its end. -/
theorem mem_snoc {α : Type} {P : α → Prop} {l : List α} {a : α} (ha : P a) :
    ∀ x ∈ l ++ [a], x ∈ l ∨ P x := by
  intro x hx
  rcases List.mem_append.mp hx with hx | hx
  · exact Or.inl hx
  · rw [List.mem_singleton.mp hx]; exact Or.inr ha

end GammaFlow.Raft
