import GammaFlow.Raft.Simulation

/-!
# Elections refine the abstract protocol

Section by section: what a lock-protected section does to its node is matched by
zero or more steps of the same node in the abstract protocol. Here for the sections
that deal with terms and votes: starting an election is a `campaign`, a vote request
a `raise` and perhaps a `vote`, and the reply that completes the majority an `elect`.
-/

namespace GammaFlow.Raft

open GammaFlow.Storage
open GammaFlow.Consensus (Le Frame Inv Reign Held)

variable {ω : Type} {cfg : Config ω} {S : Abs} {v : NodeID} {n : Node ω}

/-! ## Logs in sight -/

/-- **Log matching**, for any two logs in sight. -/
theorem matching_of_held (h : Inv cfg.quorum S) {m L : List LogEntry} (hm : Held S m)
    (hL : Held S L) : Matching m L := by
  intro k h1 hkm hkL ht
  obtain ⟨P, e, hP, hlen, _, htake, hte⟩ := exists_at h1 hkm
  obtain ⟨P', e', hP', hlen', _, htake', hte'⟩ := exists_at h1 hkL
  rw [← htake, ← htake']
  refine (h.logs.rooted m hm).matching (h.logs.rooted L hL) hP hP' (by omega) ?_
  show e.term = e'.term
  rw [← hte, ← hte', ht]

/-- Every entry in sight was written in a term that was campaigned for. -/
theorem term_pos_of_held (h : Inv cfg.quorum S) {L : List LogEntry} (hL : Held S L)
    {e : LogEntry} (he : e ∈ L) : 0 < e.term := by
  obtain ⟨P, hP⟩ := Consensus.exists_prefix_of_mem he
  obtain ⟨r, hr, _⟩ := h.logs.rooted L hL P e hP
  exact h.ballots.camp_pos (h.ballots.reign_camp hr)

/-- A dud request fails the consistency check of every log in sight. -/
theorem Dud.not_consistent (h : Inv cfg.quorum S) {log : RaftLog} (hlog : Held S log.body)
    {args : AppendEntriesArgs} (hd : Dud args) : ¬ Node.consistent log args := by
  rintro (h0 | ⟨hle, ht⟩)
  · have := hd.prev_pos; omega
  · obtain ⟨P, e, hP, _, _, _, hte⟩ := exists_at hd.prev_pos hle
    have hpos := term_pos_of_held h hlog (hP.subset (by simp) : e ∈ log.body)
    rw [RaftLog.termAt_eq, hte, hd.prev_term] at ht
    omega

theorem lastTerm_body (l : RaftLog) : l.lastTerm = Consensus.lastTerm l.body :=
  l.lastTerm_eq

theorem NodeSim.held (h : NodeSim cfg S v n) : Held S n.log.body :=
  Held.node v h.log.symm

/-! ## Terms -/

/-- Moving on to term `t` as a follower. -/
theorem NodeSim.raise (h : NodeSim cfg S v n) (hinv : Inv cfg.quorum S) {n' : Node ω}
    (ht : n.currentTerm ≤ n'.currentTerm) (hid : n'.id = n.id) (hpeers : n'.peers = n.peers)
    (hlog : n'.log = n.log) (hcommit : n'.commitIndex = n.commitIndex)
    (hnext : n'.nextIndex = n.nextIndex) (hstate : n'.state = .follower)
    (hvoted : n'.currentTerm = n.currentTerm → n'.votedFor = n.votedFor) :
    NodeSim cfg { S with term := Function.update S.term v n'.currentTerm } v n' where
  id := hid.trans h.id
  peers := hpeers.trans h.peers
  term := by simp
  log := by rw [hlog]; exact h.log
  commit := by rw [hcommit]; exact h.commit
  voted X m hm := by
    -- the node has cast no vote in a term it has just reached
    have hle : n'.currentTerm ≤ n.currentTerm := by
      rw [← h.term]; exact hinv.ballots.vote_term hm
    have heq : n'.currentTerm = n.currentTerm := by omega
    rw [heq] at hm
    rw [hvoted heq]; exact h.voted X m hm
  camp hs := by rw [hstate] at hs; exact absurd hs (by simp)
  tally hs := by rw [hstate] at hs; exact absurd hs (by simp)
  reign hs := by rw [hstate] at hs; exact absurd hs (by simp)
  matched hs := by rw [hstate] at hs; exact absurd hs (by simp)
  next hr p hp := by
    rw [hnext]
    exact h.next hr p (by rw [← hpeers]; exact hp)

variable [Journal ω]

theorem sim_becomeFollower (h : NodeSim cfg S v n) (hinv : Inv cfg.quorum S) (t : Nat) :
    ∃ S', Consensus.Step cfg.quorum v S S' ∧ NodeSim cfg S' v (n.becomeFollowerLocked t) := by
  obtain ⟨rt, w, he⟩ := n.becomeFollowerLocked_eq t
  have hle : n.currentTerm ≤ (n.becomeFollowerLocked t).currentTerm := by
    rw [he]; dsimp only; split <;> omega
  refine ⟨_, Consensus.Step.raise S (n.becomeFollowerLocked t).currentTerm
    (by rw [h.term]; exact hle), ?_⟩
  refine h.raise hinv hle ?_ ?_ ?_ ?_ ?_ ?_ ?_
  all_goals rw [he]
  intro heq
  dsimp only at heq ⊢
  split
  · rename_i hgt; rw [if_pos hgt] at heq; omega
  · rfl

theorem sim_seeTerm (h : NodeSim cfg S v n) (hinv : Inv cfg.quorum S) (t : Nat) :
    ∃ S', Relation.ReflTransGen (Consensus.Step cfg.quorum v) S S' ∧
      NodeSim cfg S' v (n.seeTerm t) := by
  unfold Node.seeTerm
  split
  · obtain ⟨S', hs, hn⟩ := sim_becomeFollower h hinv t
    exact ⟨S', Relation.ReflTransGen.single hs, hn⟩
  · exact ⟨S, Relation.ReflTransGen.refl, h⟩

/-! ## Elections -/

theorem sim_startElection (h : NodeSim cfg S v n) (hinv : Inv cfg.quorum S) (hv : v ∈ cfg.ids) :
    ∃ S', Consensus.Step cfg.quorum v S S' ∧ NodeSim cfg S' v n.startElection.1 ∧
      ∀ p ∈ n.startElection.1.peers, VoteCallOK cfg S' ⟨v, p, n.startElection.2⟩ := by
  obtain ⟨rt, w, he, hargs⟩ := n.startElection_eq
  refine ⟨_, Consensus.Step.campaign S, ?_, ?_⟩
  · rw [he, h.term, h.log]
    refine ⟨h.id, h.peers, by simp, h.log, h.commit, ?_, ?_, ?_, ?_, ?_, h.next⟩
    · intro X m hm
      rcases Set.mem_insert_iff.mp hm with heq | hm
      · dsimp only
        rw [h.id]; exact (congrArg (fun p => p.2.2.1) heq).symm
      · have := hinv.ballots.vote_term hm
        rw [h.term] at this
        dsimp only at this; omega
    · intro _
      refine ⟨Set.mem_insert _ _, ?_⟩
      intro r hr hrv
      have := hinv.ballots.reign_term hr
      rw [hrv, h.term] at this
      dsimp only at this; omega
    · intro _
      refine ⟨rfl, by simp, ?_⟩
      intro p hp
      rw [List.mem_singleton.mp hp, h.id]
      exact ⟨hv, n.log.body, Set.mem_insert _ _⟩
    · intro hs; exact absurd hs (by simp)
    · intro hs; exact absurd hs (by simp)
  · intro p hp
    rw [he] at hp
    rw [hargs]
    refine ⟨hv, by rw [← h.peers]; exact hp, h.id, S.log v, ?_, ?_, ?_⟩
    · dsimp only
      rw [h.term]; exact Set.mem_insert _ _
    · dsimp only
      rw [RaftLog.lastIndex_eq, h.log]
    · dsimp only
      rw [lastTerm_body, h.log]

omit [Journal ω] in
/-- The code's comparison of logs is the abstract one. -/
theorem upToDate_of_isLogUpToDate {ℓ : List LogEntry} {lastTerm lastIndex : Nat}
    (hi : lastIndex = ℓ.length) (ht : lastTerm = Consensus.lastTerm ℓ)
    (h : n.isLogUpToDate lastTerm lastIndex = true) : Consensus.UpToDate ℓ n.log.body := by
  unfold Node.isLogUpToDate at h
  rw [lastTerm_body, RaftLog.lastIndex_eq, hi, ht] at h
  dsimp only at h
  split at h
  · exact Or.inl (by simpa using h)
  · rename_i heq
    exact Or.inr ⟨by simpa using heq, by simpa using h⟩

theorem sim_requestVote (h : NodeSim cfg S v n) (hinv : Inv cfg.quorum S)
    (hids : ∀ X t ℓ, (X, t, ℓ) ∈ S.camps → X ∈ cfg.ids) {c : VoteCall} (hc : VoteCallOK cfg S c)
    (hcv : c.peer = v) :
    ∃ S', Relation.ReflTransGen (Consensus.Step cfg.quorum v) S S' ∧
      NodeSim cfg S' v (n.handleRequestVote c.args).1 ∧
      VoteReplyOK cfg S' (c, (n.handleRequestVote c.args).2) := by
  obtain ⟨S₁, hs₁, hn₁⟩ := sim_seeTerm h hinv c.args.term
  have hrun₁ := Consensus.next_of_steps hs₁
  have hle₁ := Consensus.le_of_steps hrun₁
  have hinv₁ := Consensus.inv_steps hinv hrun₁
  have hcamps₁ : ∀ X t ℓ, (X, t, ℓ) ∈ S₁.camps → X ∈ cfg.ids := by
    intro X t ℓ hX
    by_cases hXv : X = v
    · rw [hXv, ← hcv]; exact (cfg.mem_peers hc.caller hc.peer).1
    · exact hids X t ℓ ((Consensus.frame_of_steps hs₁).camps X hXv t ℓ hX)
  rcases n.handleRequestVote_cases c.args with ⟨_, hn, hg⟩ | ⟨hgr, hg, ⟨rt, w, hn⟩, _⟩
  · refine ⟨S₁, hs₁, by rw [hn]; exact hn₁, hc.mono hle₁, ?_⟩
    intro hg'; rw [hg] at hg'; exact absurd hg' (by simp)
  · obtain ⟨ℓ, hcamp, hi, ht⟩ := (hc.mono hle₁).camp
    obtain ⟨hterm, hcan, hup⟩ := hgr
    -- a vote already cast in this term is remembered in `votedFor`
    have honly : ∀ Y m, (v, S₁.term v, Y, m) ∈ S₁.votes → Y = c.caller := by
      intro Y m hm
      have hY := hn₁.voted Y m (by rw [← hn₁.term]; exact hm)
      rcases hcan with h0 | h0
      · obtain ⟨ℓ', hY', _⟩ := hinv₁.ballots.vote_camp hm
        have := hcamps₁ _ _ _ hY'
        rw [← hY, h0] at this
        exact absurd this cfg.id_ne_empty
      · rw [← hY, h0, hc.candidate]
    have hst : S₁.term v = c.args.term := by rw [hn₁.term]; exact hterm.symm
    have hvote := Consensus.Step.vote (Q := cfg.quorum) (v := v) S₁ c.caller ℓ
      (by rw [hst]; exact hcamp)
      (by rw [hn₁.log]; exact upToDate_of_isLogUpToDate hi ht hup) honly
    refine ⟨_, hs₁.tail hvote, ?_, (hc.mono hle₁).mono hvote.le, ?_⟩
    · rw [hn]
      refine ⟨hn₁.id, hn₁.peers, hn₁.term, hn₁.log, hn₁.commit, ?_, hn₁.camp, ?_, hn₁.reign,
        hn₁.matched, hn₁.next⟩
      · intro X m hm
        dsimp only at hm ⊢
        rcases Set.mem_insert_iff.mp hm with heq | hm
        · rw [hc.candidate]; exact (congrArg (fun p => p.2.2.1) heq).symm
        · rw [hc.candidate]; exact (honly X m (by rw [hn₁.term]; exact hm)).symm
      · intro hs
        obtain ⟨h1, h2, h3⟩ := hn₁.tally hs
        refine ⟨h1, h2, ?_⟩
        intro p hp
        obtain ⟨hid, m, hm⟩ := h3 p hp
        exact ⟨hid, m, Set.mem_insert_of_mem _ hm⟩
    · intro _
      refine ⟨S₁.log v, ?_⟩
      dsimp only
      rw [hcv, ← hst]; exact Set.mem_insert _ _

omit [Journal ω] in
/-- A vote just granted joins the tally of the candidate that asked for it. -/
theorem tally_vote (h : NodeSim cfg S v n) {c : VoteCall} {reply : RequestVoteReply}
    (hr : VoteReplyOK cfg S (c, reply)) (hcv : c.caller = v) (hterm : n.currentTerm = c.args.term)
    (hcand : n.state = .candidate) (hg : reply.voteGranted = true)
    (hp : c.peer ∉ n.votesReceived) :
    n.votes + 1 = (n.votesReceived ++ [c.peer]).length ∧ (n.votesReceived ++ [c.peer]).Nodup ∧
      ∀ p ∈ n.votesReceived ++ [c.peer], p ∈ cfg.ids ∧ ∃ m, (p, n.currentTerm, v, m) ∈ S.votes := by
  obtain ⟨hcount, hnd, hvotes⟩ := h.tally hcand
  obtain ⟨m, hm⟩ := hr.granted hg
  refine ⟨?_, ?_, ?_⟩
  · rw [List.length_append, List.length_singleton, hcount]
  · rw [← List.concat_eq_append]; exact hnd.concat hp
  · intro p hp
    rcases List.mem_append.mp hp with hp | hp
    · exact hvotes p hp
    · rw [List.mem_singleton.mp hp, hterm, ← hcv]
      exact ⟨(cfg.mem_peers hr.call.caller hr.call.peer).1, m, hm⟩

omit [Journal ω] in
/-- A candidate with a majority of votes begins its reign. -/
theorem sim_becomeLeader (h : NodeSim cfg S v n) (hinv : Inv cfg.quorum S) (hv : v ∈ cfg.ids)
    (hcand : n.state = .candidate) {vs : List NodeID} (hnd : vs.Nodup)
    (hvotes : ∀ p ∈ vs, p ∈ cfg.ids ∧ ∃ m, (p, n.currentTerm, v, m) ∈ S.votes)
    (hmaj : n.majority ≤ vs.length) (k : Nat) :
    ∃ S', Consensus.Step cfg.quorum v S S' ∧
      NodeSim cfg S' v { n with votesReceived := vs, votes := k }.becomeLeaderLocked := by
  obtain ⟨hcamp, hno⟩ := h.camp hcand
  have hq := cfg.isQuorum_of_majority hv h.peers hnd hvotes hmaj
  have hnone : S.reign n.currentTerm = none := by
    cases hrn : S.reign n.currentTerm with
    | none => rfl
    | some r => exact absurd (hinv.ballots.winner_unique hrn hq) (hno r hrn)
  have helect := Consensus.Step.elect (Q := cfg.quorum) (v := v) S
    (by rw [h.term, h.log]; exact hcamp) (by rw [h.term]; exact hq) (by rw [h.term]; exact hnone)
  refine ⟨_, helect, ?_⟩
  unfold Node.becomeLeaderLocked
  rw [h.term, h.log]
  refine ⟨h.id, h.peers, h.term, h.log, h.commit, h.voted, ?_, ?_, ?_, ?_, ?_⟩
  · intro hs; exact absurd hs (by simp)
  · intro hs; exact absurd hs (by simp)
  · intro _; exact ⟨n.log.body, by simp⟩
  · intro _ p hp; left; dsimp only at hp ⊢; rw [if_pos hp]
  · intro _ p hp; dsimp only at hp ⊢; rw [if_pos hp]; omega

theorem sim_voteReply (h : NodeSim cfg S v n) (hinv : Inv cfg.quorum S) (hv : v ∈ cfg.ids)
    {c : VoteCall} {reply : RequestVoteReply} (hr : VoteReplyOK cfg S (c, reply))
    (hcv : c.caller = v) :
    ∃ S', Relation.ReflTransGen (Consensus.Step cfg.quorum v) S S' ∧
      NodeSim cfg S' v (n.handleVoteReply c.args.term c.peer reply) := by
  have hvr := n.voteReplied c.args.term c.peer reply
  generalize n.handleVoteReply c.args.term c.peer reply = n' at hvr ⊢
  cases hvr with
  | idle _ => exact ⟨S, Relation.ReflTransGen.refl, h⟩
  | stepDown _ _ _ =>
      obtain ⟨S', hs, hn⟩ := sim_becomeFollower h hinv reply.term
      exact ⟨S', Relation.ReflTransGen.single hs, hn⟩
  | counted hterm hcand _ hg hp _ =>
      refine ⟨S, Relation.ReflTransGen.refl, ?_⟩
      exact ⟨h.id, h.peers, h.term, h.log, h.commit, h.voted, h.camp,
        fun _ => tally_vote h hr hcv hterm hcand hg hp, h.reign, h.matched, h.next⟩
  | elected hterm hcand _ hg hp hmaj =>
      obtain ⟨hcount, hnd, hvotes⟩ := tally_vote h hr hcv hterm hcand hg hp
      rw [hcount] at hmaj
      obtain ⟨S', hs, hn⟩ := sim_becomeLeader h hinv hv hcand hnd hvotes hmaj (n.votes + 1)
      exact ⟨S', Relation.ReflTransGen.single hs, hn⟩

end GammaFlow.Raft
