import Mathlib.Data.Finset.Lattice.Fold
import GammaFlow.Raft.Reaches

/-!
# A majority can elect a leader

Whatever has happened to the cluster, a member whose log is as good as any of a majority's
and whose loop is awake can be made their leader by a run of their own, with no later term
known among them (`exists_leads`).

By a heartbeat it learns that its leadership is out of date; by elections it gets its term
beyond that of the others, and then collects their votes. A loop that sleeps calls no
election (`Raft.Asleep`).
-/

namespace GammaFlow.Raft

open GammaFlow.Storage

variable {ω : Type} [Journal ω] {cfg : Config ω} {w w' : Cluster ω} {s s' : Driven ω} {limit : Nat}
  {Q : List NodeID}

namespace Node

/-- Someone of an earlier term with no better log votes for the candidate. -/
theorem handleRequestVote_grants {n : Node ω} {args : RequestVoteArgs}
    (ht : n.currentTerm < args.term)
    (hlog : n.isLogUpToDate args.lastLogTerm args.lastLogIndex = true) :
    (n.handleRequestVote args).1.currentTerm = args.term ∧
      (n.handleRequestVote args).2.voteGranted = true := by
  have hsee : n.seeTerm args.term = n.becomeFollowerLocked args.term := if_pos ht
  obtain ⟨rt, d, hn⟩ := n.becomeFollowerLocked_eq args.term
  rw [if_pos ht, if_pos ht] at hn
  rcases n.handleRequestVote_cases args with ⟨hno, _, _⟩ | ⟨_, hyes, ⟨_, _, he⟩, _⟩
  · refine absurd ?_ hno
    rw [hsee, hn]
    exact ⟨rfl, Or.inl rfl, hlog⟩
  · refine ⟨?_, hyes⟩
    rw [he, hsee, hn]

/-- A candidate counts a vote it does not have yet, and leads if it was the last one needed. -/
theorem handleVoteReply_counts {n : Node ω} {p : NodeID} {r : RequestVoteReply}
    (hst : n.state = .candidate) (hp : p ∉ n.votesReceived) (ht : r.term = n.currentTerm)
    (hyes : r.voteGranted = true) :
    (n.handleVoteReply n.currentTerm p r).currentTerm = n.currentTerm ∧
      ((n.handleVoteReply n.currentTerm p r).state = .leader ∨
        n.handleVoteReply n.currentTerm p r =
          { n with votesReceived := n.votesReceived ++ [p], votes := n.votes + 1 } ∧
        n.votes + 1 < n.majority) := by
  unfold handleVoteReply
  rw [if_neg (by simp [hst]), if_neg (by omega), if_pos hyes, if_neg hp]
  dsimp only
  split
  · exact ⟨rfl, Or.inl rfl⟩
  · rename_i hmaj
    exact ⟨rfl, Or.inr ⟨rfl, Nat.lt_of_not_le hmaj⟩⟩

end Node

/-- `m` is out for the votes of `ps`, who have not heard of its term yet. -/
structure Canvasses (limit : Nat) (Q : List NodeID) (m : NodeID) (ps : List NodeID)
    (w : Cluster ω) : Prop where
  candidate : (w.nodes m).state = .candidate
  needs : (w.nodes m).votes < (w.nodes m).majority
  fresh : ∀ p ∈ ps, p ∈ Q ∧ p ≠ m ∧ p ∉ (w.nodes m).votesReceived
  asked : ∀ p ∈ ps, ∃ args : RequestVoteArgs, ⟨m, p, args⟩ ∈ w.voteCalls ∧
    (sendRequestVote args).size ≤ limit ∧
    args.term = (w.nodes m).currentTerm ∧ (w.nodes p).currentTerm < args.term ∧
    (w.nodes p).isLogUpToDate args.lastLogTerm args.lastLogIndex = true

/-- The next of them votes for it. -/
theorem Canvasses.ask {m p : NodeID} {ps : List NodeID} (hm : m ∈ Q) (hp : p ∉ ps)
    (h : Canvasses limit Q m (p :: ps) w) : ∃ w', Reaches cfg limit Q w w' ∧
      (w'.nodes m).currentTerm = (w.nodes m).currentTerm ∧
      (w'.nodes m).log = (w.nodes m).log ∧
      (w'.nodes p).currentTerm = (w.nodes m).currentTerm ∧
      (∀ i, i ≠ m → i ≠ p → w'.nodes i = w.nodes i) ∧
      ((w'.nodes m).state = .leader ∨
        (w'.nodes m).votes = (w.nodes m).votes + 1 ∧ Canvasses limit Q m ps w') := by
  obtain ⟨hpQ, hpm, hpv⟩ := h.fresh p List.mem_cons_self
  obtain ⟨args, hcall, hsize, hterm, hlt, hlog⟩ := h.asked p List.mem_cons_self
  obtain ⟨w', hr, hnp, hnm, hothers, hcalls⟩ : ∃ w', Reaches cfg limit Q w w' ∧ _ :=
    reaches_vote hcall hm hpQ (Ne.symm hpm) hsize
  obtain ⟨hpterm, hyes⟩ := Node.handleRequestVote_grants hlt hlog
  have hreply := (w.nodes p).handleRequestVote_reply_term args
  rw [hpterm, hterm] at hreply
  obtain ⟨hmterm, hmstate⟩ := Node.handleVoteReply_counts h.candidate hpv hreply hyes
  rw [hterm] at hnm
  have hsame := ((w.nodes m).quiet_handleVoteReply (w.nodes m).currentTerm p
    ((w.nodes p).handleRequestVote args).2).log
  rw [← hnm] at hmterm hmstate hsame
  refine ⟨w', hr, hmterm, hsame, by rw [hnp, hpterm, hterm], hothers, ?_⟩
  rcases hmstate with hlead | ⟨hcount, hneeds⟩
  · exact Or.inl hlead
  refine Or.inr ⟨by rw [hcount], by rw [hcount]; exact h.candidate, by rw [hcount]; exact hneeds,
    ?_, ?_⟩
  · intro q hq
    have hqp : q ≠ p := fun heq => hp (heq ▸ hq)
    obtain ⟨hqQ, hqm, hqv⟩ := h.fresh q (List.mem_cons_of_mem _ hq)
    refine ⟨hqQ, hqm, ?_⟩
    rw [hcount]
    simp [hqv, hqp]
  · intro q hq
    have hqp : q ≠ p := fun heq => hp (heq ▸ hq)
    obtain ⟨args', hcall', hasked⟩ := h.asked q (List.mem_cons_of_mem _ hq)
    have hsame := hothers q (h.fresh q (List.mem_cons_of_mem _ hq)).2.1 hqp
    rw [← hmterm, ← hsame] at hasked
    exact ⟨args', hcalls ▸ hcall', hasked⟩

/-- It gets the votes of all of them, or leads before that. -/
theorem reaches_canvass {m : NodeID} (hm : m ∈ Q) : ∀ (ps : List NodeID) (w : Cluster ω),
    ps.Nodup → Canvasses limit Q m ps w → ∃ w', Reaches cfg limit Q w w' ∧
      (w'.nodes m).currentTerm = (w.nodes m).currentTerm ∧
      (w'.nodes m).log = (w.nodes m).log ∧
      (∀ i, i ≠ m → i ∉ ps → w'.nodes i = w.nodes i) ∧
      (∀ p ∈ ps, (w'.nodes p).currentTerm ≤ (w.nodes m).currentTerm) ∧
      ((w'.nodes m).state = .leader ∨
        (w'.nodes m).votes = (w.nodes m).votes + ps.length ∧ Canvasses limit Q m [] w') := by
  -- on those still to be asked: each vote may be the one that makes it leader
  intro ps
  induction ps with
  | nil =>
      intro w _ h
      exact ⟨w, .refl w, rfl, rfl, fun _ _ _ => rfl, fun p hp => absurd hp List.not_mem_nil,
        Or.inr ⟨rfl, h⟩⟩
  | cons p ps ih =>
      intro w hnd h
      obtain ⟨hp, hnd⟩ := List.nodup_cons.mp hnd
      obtain ⟨w₁, hr₁, hmterm, hmlog, hpterm, hothers, hcase⟩ :
          ∃ w₁, Reaches cfg limit Q w w₁ ∧ _ := h.ask hm hp
      have hfresh : ∀ q ∈ ps, q ≠ m ∧ q ≠ p := fun q hq =>
        ⟨(h.fresh q (List.mem_cons_of_mem _ hq)).2.1, fun heq => hp (heq ▸ hq)⟩
      rcases hcase with hlead | ⟨hvotes, hnext⟩
      · refine ⟨w₁, hr₁, hmterm, hmlog, ?_, ?_, Or.inl hlead⟩
        · intro i him hi
          exact hothers i him (List.ne_of_not_mem_cons hi)
        · intro q hq
          rcases List.mem_cons.mp hq with rfl | hq
          · exact Nat.le_of_eq hpterm
          · obtain ⟨_, _, _, ht, hlt, _⟩ := h.asked q (List.mem_cons_of_mem _ hq)
            rw [hothers q (hfresh q hq).1 (hfresh q hq).2, ← ht]
            exact Nat.le_of_lt hlt
      · obtain ⟨w₂, hr₂, hterm₂, hlog₂, hothers₂, hps₂, hcase₂⟩ := ih w₁ hnd hnext
        rw [hmterm] at hterm₂ hps₂
        refine ⟨w₂, hr₁.trans hr₂, hterm₂, hlog₂.trans hmlog, ?_, ?_, ?_⟩
        · intro i him hi
          rw [hothers₂ i him (List.not_mem_of_not_mem_cons hi)]
          exact hothers i him (List.ne_of_not_mem_cons hi)
        · intro q hq
          rcases List.mem_cons.mp hq with rfl | hq
          · rw [hothers₂ q (h.fresh q List.mem_cons_self).2.1 hp]
            exact Nat.le_of_eq hpterm
          · exact hps₂ q hq
        · refine hcase₂.imp_right fun ⟨hv, hdone⟩ => ⟨?_, hdone⟩
          rw [hv, hvotes, List.length_cons]
          omega

/-- An election is called, by a loop that has come to it. -/
theorem reaches_startElection (h : Tracks cfg s w) {m : NodeID} (hm : m ∈ cfg.ids) (hQ : m ∈ Q)
    (hl : s.loops m = .electing) : ∃ s' w', s.Reaches cfg limit Q s' ∧ Tracks cfg s' w' ∧
      s'.loops m = .choosing ∧ w'.nodes m = (w.nodes m).startElection.1 ∧
      (∀ i, i ≠ m → w'.nodes i = w.nodes i) ∧
      ∀ p ∈ (w.nodes m).peers, ⟨m, p, (w.nodes m).startElection.2⟩ ∈ w'.voteCalls := by
  let w' : Cluster ω := { w.setNode m (w.nodes m).startElection.1 with
    voteCalls := w.voteCalls ++ (w.nodes m).startElection.1.peers.map fun p =>
      ⟨m, p, (w.nodes m).startElection.2⟩ }
  have hs : w.act cfg (.startElection m) = some w' := if_pos hm
  obtain ⟨rts, hact⟩ := h.act hs
  let s' : Driven ω := { s.setLoop m .choosing with cluster := w'.timed rts }
  have hstep : s.step cfg (.event (.startElection m)) = some s' := by
    rw [Driven.step]
    dsimp only
    rw [if_pos hl, hact]
    rfl
  refine ⟨s', w', .step (.event (.startElection m)) hQ hstep h.submits.symm h.returned.symm,
    ⟨h.driven.tail ⟨_, hstep⟩, h.undriven.tail ⟨_, hs⟩, rts, rfl⟩, Function.update_self _ _ _,
    setNode_self _ _ _, fun i hi => setNode_ne _ _ _ hi, ?_⟩
  intro p hp
  rw [← (Node.quiet_startElection _).peers] at hp
  exact List.mem_append_right _ (List.mem_map.mpr ⟨p, hp, rfl⟩)

/-- Elections are called until the term is beyond any given one. -/
theorem reaches_campaign {m : NodeID} (hm : m ∈ cfg.ids) (hQ : m ∈ Q) : ∀ (d : Nat)
    (s : Driven ω) (w : Cluster ω), Tracks cfg s w → s.loops m = .electing →
    ∃ s' w', s.Reaches cfg limit Q s' ∧ Tracks cfg s' w' ∧
      (∀ i, i ≠ m → w'.nodes i = w.nodes i) ∧ (w'.nodes m).log = (w.nodes m).log ∧
      (w'.nodes m).state = .candidate ∧
      (w'.nodes m).currentTerm = (w.nodes m).currentTerm + d + 1 ∧ (w'.nodes m).votes = 1 ∧
      (w'.nodes m).votesReceived = [(w.nodes m).id] ∧
      ∀ p ∈ (w.nodes m).peers, ⟨m, p, ⟨(w.nodes m).currentTerm + d + 1, (w.nodes m).id,
        (w.nodes m).log.lastIndex, (w.nodes m).log.lastTerm⟩⟩ ∈ w'.voteCalls := by
  intro d
  induction d with
  | zero =>
      intro s w h hl
      obtain ⟨s', w', hr, h', _, hnm, hothers, hcalls⟩ :
          ∃ s' w', s.Reaches cfg limit Q s' ∧ _ := reaches_startElection h hm hQ hl
      obtain ⟨rt, wal, hn, hargs⟩ := (w.nodes m).startElection_eq
      rw [hn] at hnm
      rw [hargs] at hcalls
      refine ⟨s', w', hr, h', hothers, ?_, ?_, ?_, ?_, ?_, hcalls⟩
      all_goals rw [hnm]
  | succ d ih =>
      intro s w h hl
      obtain ⟨s₁, w₁, hr₁, h₁, hl₁, hnm, hothers₁, _⟩ :
          ∃ s' w', s.Reaches cfg limit Q s' ∧ _ := reaches_startElection h hm hQ hl
      obtain ⟨rt, wal, hn, _⟩ := (w.nodes m).startElection_eq
      rw [hn] at hnm
      -- the loop has to come round again
      obtain ⟨s₂, hr₂, h₂, hl₂⟩ : ∃ s₂, s₁.Reaches cfg limit Q s₂ ∧ _ :=
        reaches_electing h₁ hm hQ (awake_of_loop hl₁ (by simp)) (by rw [hnm]; simp)
      obtain ⟨s', w', hr, h', hothers, hlog, hst', hterm, hvotes, hgot, hcalls⟩ := ih s₂ w₁ h₂ hl₂
      rw [hnm] at hlog hterm hgot hcalls
      refine ⟨s', w', (hr₁.trans hr₂).trans hr, h', fun i hi => (hothers i hi).trans (hothers₁ i hi),
        hlog, hst', ?_, hvotes, hgot, ?_⟩
      · rw [hterm]
        dsimp only
        omega
      · intro p hp
        have := hcalls p hp
        dsimp only at this
        rwa [show (w.nodes m).currentTerm + 1 + d + 1 = (w.nodes m).currentTerm + (d + 1) + 1 by
          omega] at this

/-- A round of heartbeats is begun, by a loop that has come to it. -/
theorem reaches_sendHeartbeats (h : Tracks cfg s w) {m : NodeID} (hm : m ∈ cfg.ids) (hQ : m ∈ Q)
    (hloop : s.loops m = .beating) (hl : (w.nodes m).state = .leader) :
    ∃ s' w', s.Reaches cfg limit Q s' ∧ Tracks cfg s' w' ∧ s'.loops m = .rearming ∧
      w'.nodes = w.nodes ∧ ∀ p ∈ (w.nodes m).peers,
        ⟨m, p, (w.nodes m).currentTerm, (w.nodes m).id, (w.nodes m).commitIndex⟩ ∈ w'.heartbeats := by
  let w' : Cluster ω := { w with
    heartbeats := w.heartbeats ++ (w.nodes m).peers.map fun p =>
      ⟨m, p, (w.nodes m).currentTerm, (w.nodes m).id, (w.nodes m).commitIndex⟩ }
  have hs : w.act cfg (.sendHeartbeats m) = some w' := if_pos ⟨hm, hl⟩
  obtain ⟨rts, hact⟩ := h.act hs
  let s' : Driven ω := { s.setLoop m .rearming with cluster := w'.timed rts }
  have hstep : s.step cfg (.event (.sendHeartbeats m)) = some s' := by
    rw [Driven.step]
    dsimp only
    rw [if_pos hloop, hact]
    rfl
  refine ⟨s', w', .step (.event (.sendHeartbeats m)) hQ hstep h.submits.symm h.returned.symm,
    ⟨h.driven.tail ⟨_, hstep⟩, h.undriven.tail ⟨_, hs⟩, rts, rfl⟩, Function.update_self _ _ _,
    rfl, ?_⟩
  intro p hp
  exact List.mem_append_right _ (List.mem_map.mpr ⟨p, hp, rfl⟩)

/-- A leader whose heartbeat meets a later term gives up. -/
theorem reaches_stepDown (h : Tracks cfg s w) {m p : NodeID} (hm : m ∈ cfg.ids) (hmQ : m ∈ Q)
    (hpQ : p ∈ Q) (hne : m ≠ p) (hloop : s.loops m = .beating)
    (hl : (w.nodes m).state = .leader) (hp : p ∈ (w.nodes m).peers)
    (hfits : OneRequest limit m (w.nodes m).log)
    (hlt : (w.nodes m).currentTerm < (w.nodes p).currentTerm) :
    ∃ s' w', s.Reaches cfg limit Q s' ∧ Tracks cfg s' w' ∧ s'.loops m = .rearming ∧
      (w'.nodes m).state = .follower ∧ (w'.nodes m).log = (w.nodes m).log ∧
      ∀ i, i ≠ m → w'.nodes i = w.nodes i := by
  obtain ⟨s₁, w₁, hr₁, h₁, hloop₁, hnodes, hbeats⟩ : ∃ s₁ w₁, s.Reaches cfg limit Q s₁ ∧ _ :=
    reaches_sendHeartbeats h hm hmQ hloop hl
  -- the rest is up to the heartbeat's goroutine and the peer
  obtain ⟨w', hr, hnp, hnm, hothers⟩ : ∃ w', Reaches cfg limit Q w₁ w' ∧ _ :=
    reaches_heartbeat (hbeats p hp) hmQ hpQ hne (by rw [hnodes]; rfl)
      (size_request h.undriven hl hp hfits)
  obtain ⟨s', hr', hloops, h'⟩ := h₁.reaches hr
  have hstale : (w.nodes p).handleAppendEntries ((w.exchange m p).request p) =
      (w.nodes p, ⟨(w.nodes p).currentTerm, false, 0, 0⟩) := if_pos hlt
  have hterm : ((w.exchange m p).request p).term = (w.nodes m).currentTerm := rfl
  have hdown : w'.nodes m = (w.nodes m).becomeFollowerLocked (w.nodes p).currentTerm := by
    rw [hnm, hnodes, hstale, hterm, Node.handleAppendReply, if_neg (by simp [hl])]
    exact if_pos hlt
  refine ⟨s', w', hr₁.trans hr', h', ?_, ?_, ?_, ?_⟩
  · rw [hloops]; exact hloop₁
  · rw [hdown]; exact Node.becomeFollowerLocked_state _ _
  · rw [hdown]; exact (Node.quiet_becomeFollowerLocked _ _).log
  · intro i hi
    by_cases hip : i = p
    · rw [hip, hnp, hnodes, hstale]
    · rw [hothers i hi hip, hnodes]

/-- `m` leads, and no one in `Q` knows of a later term. -/
structure Leads (Q : List NodeID) (m : NodeID) (w : Cluster ω) : Prop where
  mem : m ∈ Q
  leader : (w.nodes m).state = .leader
  terms : ∀ p ∈ Q, (w.nodes p).currentTerm ≤ (w.nodes m).currentTerm

/-- A majority of a cluster of two or more. -/
structure Majority (cfg : Config ω) (Q : List NodeID) : Prop where
  nodup : Q.Nodup
  members : ∀ i ∈ Q, i ∈ cfg.ids
  more : cfg.ids.length < 2 * Q.length
  several : 2 ≤ cfg.ids.length

omit [Journal ω] in
theorem Majority.others (hQ : Majority cfg Q) {m : NodeID} (hm : m ∈ Q) : Q.erase m ≠ [] := by
  intro hnil
  have hlen := List.length_erase_of_mem hm
  have hmore := hQ.more
  have hseveral := hQ.several
  rw [hnil, List.length_nil] at hlen
  omega

/-- With the best log among them, one whose loop calls an election can be elected. -/
theorem reaches_elected (h : Tracks cfg s w) (hQ : Majority cfg Q) {m : NodeID} (hm : m ∈ Q)
    (hl : s.loops m = .electing) (hfits : OneRequest limit m (w.nodes m).log)
    (hbest : ∀ p ∈ Q,
      (w.nodes p).isLogUpToDate (w.nodes m).log.lastTerm (w.nodes m).log.lastIndex = true) :
    ∃ s' w', s.Reaches cfg limit Q s' ∧ Tracks cfg s' w' ∧ Leads Q m w' ∧
      (w'.nodes m).log = (w.nodes m).log := by
  have hid := hQ.members m hm
  have hlen := cfg.length_peers hid
  obtain ⟨s₁, w₁, hr₁, h₁, hothers₁, hlog₁, hst₁, hterm₁, hvotes₁, hgot₁, hcalls⟩ :
      ∃ s₁ w₁, s.Reaches cfg limit Q s₁ ∧ _ := reaches_campaign hid hm
        (Q.toFinset.sup fun p => (w.nodes p).currentTerm) s w h hl
  have hbelow : ∀ p ∈ Q, p ≠ m → (w₁.nodes p).currentTerm < (w₁.nodes m).currentTerm := by
    intro p hp hpm
    have := Finset.le_sup (f := fun p => (w.nodes p).currentTerm) (List.mem_toFinset.mpr hp)
    rw [hothers₁ p hpm, hterm₁]
    omega
  have hcanvass : Canvasses limit Q m (Q.erase m) w₁ := by
    refine ⟨hst₁, ?_, ?_, ?_⟩
    · rw [hvotes₁, Node.majority, peers_reachable h₁.undriven, hlen]
      have := hQ.several
      omega
    · intro p hp
      obtain ⟨hpm, hp⟩ := (List.Nodup.mem_erase_iff hQ.nodup).mp hp
      refine ⟨hp, hpm, ?_⟩
      rw [hgot₁, id_reachable h.undriven, List.mem_singleton]
      exact hpm
    · intro p hp
      obtain ⟨hpm, hp⟩ := (List.Nodup.mem_erase_iff hQ.nodup).mp hp
      refine ⟨_, hcalls p (mem_peers_reachable h.undriven hid (hQ.members p hp) hpm), ?_,
        hterm₁.symm, ?_, ?_⟩
      · refine (size_sendRequestVote_le _ ((w.nodes m).log.body.map LogEntry.command)).trans ?_
        dsimp only
        rw [id_reachable h.undriven]
        exact hfits
      · rw [← hterm₁]; exact hbelow p hp hpm
      · rw [hothers₁ p hpm]; exact hbest p hp
  obtain ⟨w₂, hr₂, hterm₂, hlog₂, _, hps₂, hcase⟩ : ∃ w₂, Reaches cfg limit Q w₁ w₂ ∧ _ :=
    reaches_canvass hm _ w₁ (hQ.nodup.erase m) hcanvass
  obtain ⟨s₂, hr₂', _, h₂⟩ := h₁.reaches hr₂
  refine ⟨s₂, w₂, hr₁.trans hr₂', h₂, ⟨hm, ?_, ?_⟩, hlog₂.trans hlog₁⟩
  · rcases hcase with hlead | ⟨hvotes, hdone⟩
    · exact hlead
    · -- everyone has voted for it, so it has all the votes it needs
      have hneeds := hdone.needs
      rw [hvotes, hvotes₁, List.length_erase_of_mem hm, Node.majority,
        peers_reachable h₂.undriven, hlen] at hneeds
      have := hQ.more
      omega
  · intro p hp
    by_cases hpm : p = m
    · rw [hpm]
    · rw [hterm₂]
      exact hps₂ p ((List.Nodup.mem_erase_iff hQ.nodup).mpr ⟨hpm, hp⟩)

/-- **A member with the best log and a loop that is awake can lead**, whatever has happened. -/
theorem exists_leads (h : Tracks cfg s w) (hQ : Majority cfg Q) {m : NodeID} (hm : m ∈ Q)
    (hable : s.Awake m ∨ Leads Q m w) (hfits : OneRequest limit m (w.nodes m).log)
    (hbest : ∀ p ∈ Q,
      (w.nodes p).isLogUpToDate (w.nodes m).log.lastTerm (w.nodes m).log.lastIndex = true) :
    ∃ s' w', s.Reaches cfg limit Q s' ∧ Tracks cfg s' w' ∧ Leads Q m w' ∧
      (w'.nodes m).log = (w.nodes m).log := by
  rcases hable with hawake | hleads
  swap
  · exact ⟨s, w, .refl s, h, hleads, rfl⟩
  have hid := hQ.members m hm
  obtain ⟨s₁, hr₁, h₁, hready⟩ : ∃ s₁, s.Reaches cfg limit Q s₁ ∧ _ := reaches_ready h hid hm hawake
  rcases hready with hl | ⟨hl, hlead⟩
  · obtain ⟨s₂, w₂, hr₂, h₂⟩ := reaches_elected h₁ hQ hm hl hfits hbest
    exact ⟨s₂, w₂, hr₁.trans hr₂, h₂⟩
  rcases em (∀ p ∈ Q, (w.nodes p).currentTerm ≤ (w.nodes m).currentTerm) with hterms | hlater
  · exact ⟨s₁, w, hr₁, h₁, ⟨hm, hlead, hterms⟩, rfl⟩
  -- someone has heard of a later term
  simp only [not_forall, not_le] at hlater
  obtain ⟨p, hp, hlt⟩ := hlater
  have hpm : p ≠ m := by rintro rfl; omega
  obtain ⟨s₂, w₂, hr₂, h₂, hl₂, hst₂, hlog₂, hothers₂⟩ : ∃ s₂ w₂, s₁.Reaches cfg limit Q s₂ ∧ _ :=
    reaches_stepDown h₁ hid hm hp (Ne.symm hpm) hl hlead
      (mem_peers_reachable h₁.undriven hid (hQ.members p hp) hpm) hfits hlt
  have hlogs : ∀ i, (w₂.nodes i).log = (w.nodes i).log := by
    intro i
    by_cases hi : i = m
    · rw [hi]; exact hlog₂
    · rw [hothers₂ i hi]
  obtain ⟨s₃, hr₃, h₃, hl₃⟩ : ∃ s₃, s₂.Reaches cfg limit Q s₃ ∧ _ :=
    reaches_electing h₂ hid hm (awake_of_loop hl₂ (by simp)) (by rw [hst₂]; simp)
  obtain ⟨s₄, w₄, hr₄, h₄, hleads, hlog₄⟩ := reaches_elected h₃ hQ hm hl₃ (hlogs m ▸ hfits) (by
    intro q hq
    have := hbest q hq
    unfold Node.isLogUpToDate at this ⊢
    rwa [hlogs, hlogs])
  exact ⟨s₄, w₄, ((hr₁.trans hr₂).trans hr₃).trans hr₄, h₄, hleads, hlog₄.trans (hlogs m)⟩

end GammaFlow.Raft
