import GammaFlow.Raft.RefineReplication
import GammaFlow.Raft.ClusterSpec

/-!
# The cluster refines the abstract protocol

`sim_step` puts the sections together and `sim_run` follows a run: along every run
of the cluster there is a run of the abstract protocol through related states, so
what was proved about the one holds of the other.
-/

namespace GammaFlow.Raft

open GammaFlow.Storage
open GammaFlow.Consensus (Le Frame Inv Reign Held)

variable {ω : Type} {cfg : Config ω} {w w' : Cluster ω} {S : Abs}

/-- A step that only the runtime of a node or the bookkeeping of calls can see. -/
theorem Sim.same (h : Sim cfg w S) (hnodes : ∀ i, NodeSim cfg S i (w'.nodes i))
    (hvc : w'.voteCalls = w.voteCalls) (hvr : w'.voteReplies = w.voteReplies)
    (hhb : w'.heartbeats = w.heartbeats) (hac : w'.appendCalls = w.appendCalls)
    (har : w'.appendReplies = w.appendReplies) (hsub : w'.submits = w.submits) : Sim cfg w' S where
  inv := h.inv
  camp_ids := h.camp_ids
  nodes := hnodes
  voteCalls := by rw [hvc]; exact h.voteCalls
  voteReplies := by rw [hvr]; exact h.voteReplies
  heartbeats := by rw [hhb]; exact h.heartbeats
  appendCalls := by rw [hac]; exact h.appendCalls
  appendReplies := by rw [har]; exact h.appendReplies
  submits := by rw [hsub]; exact h.submits

/-- The common end of the section lemmas: a run of the acting node and its new state. -/
theorem Sim.of_node {v : NodeID} {n' : Node ω} (h : Sim cfg w S) (hv : v ∈ cfg.ids)
    (hn : ∃ S', Relation.ReflTransGen (Consensus.Step cfg.quorum v) S S' ∧ NodeSim cfg S' v n') :
    ∃ S', Relation.ReflTransGen (Consensus.Next cfg.quorum) S S' ∧
      Sim cfg (w.setNode v n') S' := by
  obtain ⟨S', hs, hn⟩ := hn
  refine ⟨S', Consensus.next_of_steps hs, h.next hv hs (fun i hi => setNode_ne w v n' hi)
    (by rw [setNode_self]; exact hn) ?_ ?_ ?_ ?_ ?_ ?_⟩
  all_goals exact fun _ => Or.inl

variable [Journal ω]

/-- **Every step of the cluster is matched by the abstract protocol.** -/
theorem sim_step (h : Sim cfg w S) {ev : Event} (hs : w.act cfg ev = some w') :
    ∃ S', Relation.ReflTransGen (Consensus.Next cfg.quorum) S S' ∧ Sim cfg w' S' := by
  cases acts_of_act hs with
  | startElection i hi =>
      obtain ⟨S', hst, hn, hcalls⟩ := sim_startElection (h.nodes i) h.inv hi
      have hst' := Relation.ReflTransGen.single hst
      refine ⟨S', Consensus.next_of_steps hst', h.next hi hst'
        (fun j hj => setNode_ne w i _ hj) (by rw [setNode_self]; exact hn) ?_ ?_ ?_ ?_ ?_ ?_⟩
      · intro c hc
        rcases List.mem_append.mp hc with hc | hc
        · exact Or.inl hc
        · obtain ⟨p, hp, rfl⟩ := List.mem_map.mp hc
          exact Or.inr (hcalls p hp)
      all_goals exact fun _ => Or.inl
  | requestVote k c hc =>
      have hok := h.voteCalls c (List.mem_of_getElem? hc)
      have hpeer := (cfg.mem_peers hok.caller hok.peer).1
      obtain ⟨S', hst, hn, hrep⟩ := sim_requestVote (h.nodes c.peer) h.inv h.camp_ids hok rfl
      refine ⟨S', Consensus.next_of_steps hst, h.next hpeer hst
        (fun j hj => setNode_ne w c.peer _ hj) (by rw [setNode_self]; exact hn) ?_ ?_ ?_ ?_ ?_ ?_⟩
      · exact fun _ => Or.inl
      · exact mem_snoc hrep
      all_goals exact fun _ => Or.inl
  | voteReply k c r hc =>
      have hok := h.voteReplies (c, r) (List.mem_of_getElem? hc)
      exact h.of_node hok.call.caller
        (sim_voteReply (h.nodes c.caller) h.inv hok.call.caller hok rfl)
  | sendHeartbeats i hi hl =>
      obtain ⟨S', hst, hn, hcap⟩ := sim_capture (h.nodes i) hl
      have hst' := Relation.ReflTransGen.single hst
      refine ⟨S', Consensus.next_of_steps hst', h.next hi hst' (fun _ _ => rfl) hn
        ?_ ?_ ?_ ?_ ?_ ?_⟩
      · exact fun _ => Or.inl
      · exact fun _ => Or.inl
      · intro hb hmem
        rcases List.mem_append.mp hmem with hmem | hmem
        · exact Or.inl hmem
        · obtain ⟨p, hp, rfl⟩ := List.mem_map.mp hmem
          exact Or.inr ⟨hi, by rw [← (h.nodes i).peers]; exact hp, (h.nodes i).id, hcap⟩
      all_goals exact fun _ => Or.inl
  | readHeartbeat k hb hmem =>
      have hok := h.heartbeats hb (List.mem_of_getElem? hmem)
      obtain ⟨S', hst, hn, hcall⟩ :=
        sim_snap (h.nodes hb.caller) h.inv hok.caller hok.cap hok.peer hok.leader
      have hst' := Relation.ReflTransGen.single hst
      refine ⟨S', Consensus.next_of_steps hst', h.next hok.caller hst' (fun _ _ => rfl) hn
        ?_ ?_ ?_ ?_ ?_ ?_⟩
      · exact fun _ => Or.inl
      · exact fun _ => Or.inl
      · exact fun _ => Or.inl
      · exact mem_snoc hcall
      all_goals exact fun _ => Or.inl
  | replicateLog i p hid hp hlead =>
      -- one section does what the two of a heartbeat do
      obtain ⟨S₁, hst₁, hn₁, hcap⟩ := sim_capture (h.nodes i) hlead
      have hinv₁ := Consensus.inv_step h.inv hst₁
      obtain ⟨S₂, hst₂, hn₂, hcall⟩ := sim_snap hn₁ hinv₁ hid hcap
        (by rw [← (h.nodes i).peers]; exact hp) (h.nodes i).id
      have hst := (Relation.ReflTransGen.single hst₁).tail hst₂
      refine ⟨S₂, Consensus.next_of_steps hst, h.next hid hst (fun _ _ => rfl) hn₂
        ?_ ?_ ?_ ?_ ?_ ?_⟩
      · exact fun _ => Or.inl
      · exact fun _ => Or.inl
      · exact fun _ => Or.inl
      · exact mem_snoc hcall
      all_goals exact fun _ => Or.inl
  | appendEntries k c hc =>
      have hok := h.appendCalls c (List.mem_of_getElem? hc)
      have hpeer := (cfg.mem_peers hok.caller hok.peer).1
      obtain ⟨S', hst, hn, hrep⟩ := sim_appendEntries (h.nodes c.peer) h.inv hok rfl
      refine ⟨S', Consensus.next_of_steps hst, h.next hpeer hst
        (fun j hj => setNode_ne w c.peer _ hj) (by rw [setNode_self]; exact hn) ?_ ?_ ?_ ?_ ?_ ?_⟩
      · exact fun _ => Or.inl
      · exact fun _ => Or.inl
      · exact fun _ => Or.inl
      · exact fun _ => Or.inl
      · exact mem_snoc hrep
      · exact fun _ => Or.inl
  | appendReply k c r hc =>
      have hok := h.appendReplies (c, r) (List.mem_of_getElem? hc)
      exact h.of_node hok.call.caller
        (sim_appendReply (h.nodes c.caller) h.inv hok.call.caller hok rfl)
  | submitted i command index term hi hres =>
      obtain ⟨S', hst, hn, hsub⟩ := sim_submitCommand (h.nodes i) hi command
      refine ⟨S', Consensus.next_of_steps hst, h.next hi hst
        (fun j hj => setNode_ne w i _ hj) (by rw [setNode_self]; exact hn) ?_ ?_ ?_ ?_ ?_ ?_⟩
      · exact fun _ => Or.inl
      · exact fun _ => Or.inl
      · exact fun _ => Or.inl
      · exact fun _ => Or.inl
      · exact fun _ => Or.inl
      · exact mem_snoc (hsub index term hres)
  | refused i command hi =>
      obtain ⟨S', hst, hn, _⟩ := sim_submitCommand (h.nodes i) hi command
      exact h.of_node hi ⟨S', hst, hn⟩
  | finishApply i m hm =>
      refine ⟨S, Relation.ReflTransGen.refl, h.same ?_ rfl rfl rfl rfl rfl rfl⟩
      intro j
      dsimp only
      by_cases hj : j = i
      · -- `lastApplied` is of no concern to the protocol
        rw [hj, setNode_self]
        have hn := h.nodes i
        exact ⟨hn.id, hn.peers, hn.term, hn.log, hn.commit, hn.voted, hn.camp, hn.tally,
          hn.reign, hn.matched, hn.next⟩
      · rw [setNode_ne w i _ hj]; exact h.nodes j
  | _ => exact ⟨S, Relation.ReflTransGen.refl, h.same h.nodes rfl rfl rfl rfl rfl rfl⟩

/-- Runs are matched by runs. -/
theorem sim_run (h : Sim cfg w S) (hr : Cluster.Run cfg w w') :
    ∃ S', Relation.ReflTransGen (Consensus.Next cfg.quorum) S S' ∧ Sim cfg w' S' := by
  refine Execution.Run.invariant hr ⟨S, Relation.ReflTransGen.refl, h⟩ ?_
  rintro w₁ ev w₂ _ ⟨S₁, hrun₁, h₁⟩ hs
  obtain ⟨S₂, hrun₂, h₂⟩ := sim_step h₁ hs
  exact ⟨S₂, hrun₁.trans hrun₂, h₂⟩

/-- **Every reachable state of the cluster implements a state of the abstract protocol.** -/
theorem sim_reachable (hr : Cluster.Reachable cfg w) : ∃ S, Sim cfg w S := by
  obtain ⟨S, _, h⟩ := sim_run (sim_init cfg) hr
  exact ⟨S, h⟩

end GammaFlow.Raft
