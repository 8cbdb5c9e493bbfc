import GammaFlow.Raft.Cluster

/-!
# Clusters that go the same way

Nodes can differ in something that no section asks for: how their write-ahead logs are kept,
what state their timers are in. `Respects` says that a likeness of nodes is of that kind.
Clusters with the same messages whose nodes are alike can then do the same events, and are
alike afterwards (`act_alike`).
-/

namespace GammaFlow.Raft

open GammaFlow.Storage

variable {ω ω' : Type}

/-- The results of a section: nodes that are alike, and the same answer. -/
def Both {β : Type} (A : Node ω → Node ω' → Prop) (x : Node ω × β) (x' : Node ω' × β) : Prop :=
  A x.1 x'.1 ∧ x'.2 = x.2

/-- What the cluster reads of a node without changing it. -/
structure SameReads (n : Node ω) (n' : Node ω') : Prop where
  id : n'.id = n.id
  peers : n'.peers = n.peers
  currentTerm : n'.currentTerm = n.currentTerm
  state : n'.state = n.state
  commitIndex : n'.commitIndex = n.commitIndex
  buildRequest : n'.buildRequest = n.buildRequest
  pollSubmit : n'.pollSubmit = n.pollSubmit
  collectApply : n'.collectApply = n.collectApply

/-- Every section does the same to nodes that are alike. -/
structure Respects [Journal ω] [Journal ω'] (A : Node ω → Node ω' → Prop) : Prop where
  reads {n n'} : A n n' → SameReads n n'
  startElection {n n'} : A n n' → Both A n.startElection n'.startElection
  handleRequestVote {n n'} : A n n' → ∀ args,
    Both A (n.handleRequestVote args) (n'.handleRequestVote args)
  handleVoteReply {n n'} : A n n' → ∀ term p reply,
    A (n.handleVoteReply term p reply) (n'.handleVoteReply term p reply)
  handleAppendEntries {n n'} : A n n' → ∀ args,
    Both A (n.handleAppendEntries args) (n'.handleAppendEntries args)
  handleAppendReply {n n'} : A n n' → ∀ term p es reply,
    A (n.handleAppendReply term p es reply) (n'.handleAppendReply term p es reply)
  submitCommand {n n'} : A n n' → ∀ command,
    Both A (n.submitCommand command) (n'.submitCommand command)
  applied {n n'} : A n n' → ∀ c, A { n with lastApplied := c } { n' with lastApplied := c }

namespace Cluster

/-- The clusters have alike nodes, and the same of everything else. -/
structure Alike (A : Node ω → Node ω' → Prop) (w : Cluster ω) (w' : Cluster ω') : Prop where
  nodes : ∀ i, A (w.nodes i) (w'.nodes i)
  heartbeats : w'.heartbeats = w.heartbeats
  voteCalls : w'.voteCalls = w.voteCalls
  voteReplies : w'.voteReplies = w.voteReplies
  appendCalls : w'.appendCalls = w.appendCalls
  appendReplies : w'.appendReplies = w.appendReplies
  applying : w'.applying = w.applying
  applyCh : w'.applyCh = w.applyCh
  submits : w'.submits = w.submits
  returned : w'.returned = w.returned

variable {A : Node ω → Node ω' → Prop} {w : Cluster ω} {w' : Cluster ω'}

theorem Alike.setNode (h : Alike A w w') (i : NodeID) {n : Node ω} {n' : Node ω'} (hn : A n n') :
    Alike A (w.setNode i n) (w'.setNode i n') := by
  refine { h with nodes := fun j => ?_ }
  unfold Cluster.setNode
  by_cases hj : j = i
  · subst hj; simpa using hn
  · simpa [hj] using h.nodes j

/-- Both can do something, or neither can. -/
def Together (A : Node ω → Node ω' → Prop) : Option (Cluster ω) → Option (Cluster ω') → Prop :=
  Option.Rel (Alike A)

theorem together_map {γ : Type} {o o' : Option γ} (ho : o' = o) {f : γ → Cluster ω}
    {f' : γ → Cluster ω'} (h : ∀ c, Alike A (f c) (f' c)) : Together A (o.map f) (o'.map f') := by
  rw [ho]
  cases o with
  | none => exact .none
  | some c => exact .some (h c)

theorem together_ite {p p' : Prop} [Decidable p] [Decidable p'] (hp : p' ↔ p) {v : Cluster ω}
    {v' : Cluster ω'} (h : Alike A v v') :
    Together A (if p then some v else none) (if p' then some v' else none) := by
  by_cases hc : p
  · rw [if_pos hc, if_pos (hp.mpr hc)]; exact .some h
  · rw [if_neg hc, if_neg (hp.not.mpr hc)]; exact .none

variable [Journal ω] [Journal ω'] {cfg : Config ω} {cfg' : Config ω'}

/-- **Clusters that are alike do the same.** -/
theorem act_alike (hA : Respects A) (hids : cfg'.ids = cfg.ids) (h : Alike A w w') (ev : Event) :
    Together A (w.act cfg ev) (w'.act cfg' ev) := by
  have hmem : ∀ i, i ∈ cfg'.ids ↔ i ∈ cfg.ids := fun i => by rw [hids]
  cases ev with
  | startElection i =>
      have hboth := hA.startElection (h.nodes i)
      rw [act, act]
      -- what the section does is in `hboth`: it must not be unfolded
      generalize (w.nodes i).startElection = x at hboth ⊢
      generalize (w'.nodes i).startElection = x' at hboth ⊢
      refine together_ite (hmem i) { h.setNode i hboth.1 with voteCalls := ?_ }
      dsimp only
      rw [h.voteCalls, hboth.2, (hA.reads hboth.1).peers]
  | requestVote k =>
      refine together_map (congrArg (·[k]?) h.voteCalls) fun c => ?_
      obtain ⟨hn, hreply⟩ := hA.handleRequestVote (h.nodes c.peer) c.args
      refine { h.setNode c.peer hn with voteReplies := ?_ }
      dsimp only
      rw [h.voteReplies, hreply]
  | voteReply k =>
      refine together_map (congrArg (·[k]?) h.voteReplies) fun c => ?_
      exact h.setNode _ (hA.handleVoteReply (h.nodes c.1.caller) _ _ _)
  | sendHeartbeats i =>
      have hr := hA.reads (h.nodes i)
      refine together_ite (and_congr (hmem i) (by rw [hr.state])) { h with heartbeats := ?_ }
      dsimp only
      rw [h.heartbeats, hr.peers, hr.currentTerm, hr.id, hr.commitIndex]
  | readHeartbeat k =>
      refine together_map (congrArg (·[k]?) h.heartbeats) fun hb => { h with appendCalls := ?_ }
      dsimp only
      rw [h.appendCalls, (hA.reads (h.nodes hb.caller)).buildRequest]
  | replicateLog i peer =>
      have hr := hA.reads (h.nodes i)
      refine together_ite ?_ { h with appendCalls := ?_ }
      · rw [hids, hr.peers, hr.state, hr.buildRequest, hr.currentTerm, hr.id, hr.commitIndex]
      · dsimp only
        rw [h.appendCalls, hr.buildRequest, hr.currentTerm, hr.id, hr.commitIndex]
  | appendEntries k =>
      refine together_map (congrArg (·[k]?) h.appendCalls) fun c => ?_
      obtain ⟨hn, hreply⟩ := hA.handleAppendEntries (h.nodes c.peer) c.args
      refine { h.setNode c.peer hn with appendReplies := ?_ }
      dsimp only
      rw [h.appendReplies, hreply]
  | appendReply k =>
      refine together_map (congrArg (·[k]?) h.appendReplies) fun c => ?_
      exact h.setNode _ (hA.handleAppendReply (h.nodes c.1.caller) _ _ _ _)
  | submitCommand i command =>
      obtain ⟨hn, hres⟩ := hA.submitCommand (h.nodes i) command
      rw [act, act]
      dsimp only
      rw [hres]
      cases ((w.nodes i).submitCommand command).2 with
      | errNotLeader => exact together_ite (hmem i) (h.setNode i hn)
      | errPersist => exact together_ite (hmem i) (h.setNode i hn)
      | appended index term =>
          refine together_ite (hmem i) { h.setNode i hn with submits := ?_ }
          dsimp only
          rw [h.submits]
  | pollSubmit k =>
      rw [act, act, h.submits]
      cases w.submits[k]? with
      | none => exact .none
      | some c =>
          dsimp only
          rw [h.returned, (hA.reads (h.nodes c.node)).pollSubmit]
          split
          · exact .none
          · cases (w.nodes c.node).pollSubmit c.index c.term with
            | errNotLeader => exact .some { h with submits := rfl, returned := rfl }
            | done => exact .some { h with submits := rfl, returned := rfl }
            | waiting => exact .some h
  | timeoutSubmit k =>
      refine together_ite ?_ { h with returned := ?_ }
      · rw [h.submits, h.returned]
      · dsimp only
        rw [h.returned]
  | collectApply i =>
      rw [act, act, h.applying]
      cases w.applying i with
      | some _ => exact .none
      | none =>
          refine together_map (hA.reads (h.nodes i)).collectApply fun task =>
            { h with applying := ?_ }
          dsimp only
  | sendApply i =>
      rw [act, act, h.applying, h.applyCh]
      rcases w.applying i with _ | ⟨_ | ⟨e, es⟩, c⟩
      · exact .none
      · exact .none
      · exact .some { h with applying := rfl, applyCh := rfl }
  | finishApply i =>
      rw [act, act, h.applying]
      rcases w.applying i with _ | ⟨_ | ⟨e, es⟩, c⟩
      · exact .none
      · exact .some { h.setNode i (hA.applied (h.nodes i) c) with applying := rfl }
      · exact .none

end Cluster

end GammaFlow.Raft
