import GammaFlow.Lib.OrderStatistic
import GammaFlow.Raft.RefineElection

/-!
# Replication refines the abstract protocol

The sections that deal with logs. A submitted command is an `append`, a heartbeat a
`capture` and later a `snap`, a replication request a `raise` and perhaps an
`adopt`, and a success reply perhaps a `decide`.

The heartbeat goroutine needs no argument of its own: the abstract `snap` may be
taken long after the capture, by a node that has been deposed and overwritten, and
that is what the goroutine does.
-/

namespace GammaFlow.Raft

open GammaFlow.Storage
open GammaFlow.Consensus (Le Frame Inv Reign Held graft)

variable {ω : Type} {cfg : Config ω} {S : Abs} {v : NodeID} {n : Node ω}

/-! ## Sending -/

theorem prevLogTerm_buildRequest {p : NodeID} (hnext : 1 ≤ n.nextIndex p) (t c : Nat) (l : NodeID) :
    (n.buildRequest p t l c).prevLogTerm = RaftLog.termIn n.log.body (n.nextIndex p - 1) := by
  show n.log.termAt (predIndex (n.nextIndex p)) = _
  rw [predIndex_of_pos hnext, RaftLog.termAt_eq]

/-- A request built from inside the log, or from its end, ships the log. -/
theorem ships_of_next {p : NodeID} (hnext : 1 ≤ n.nextIndex p)
    (hle : n.nextIndex p ≤ n.log.body.length + 1) (t c : Nat) (l : NodeID) :
    Ships n.log.body (n.buildRequest p t l c) := by
  have hprev : (n.buildRequest p t l c).prevLogIndex = n.nextIndex p - 1 := predIndex_of_pos hnext
  refine ⟨by rw [hprev]; omega, by rw [prevLogTerm_buildRequest hnext, hprev], ?_⟩
  show n.log.entriesFrom (n.nextIndex p) = _
  rw [RaftLog.entriesFrom_eq _ hnext, hprev]

/-- What either sender builds from the node's present log. -/
theorem ships_buildRequest {p : NodeID} (hnext : 1 ≤ n.nextIndex p) (t c : Nat) (l : NodeID) :
    Ships n.log.body (n.buildRequest p t l c) ∨ Dud (n.buildRequest p t l c) := by
  by_cases hle : n.nextIndex p ≤ n.log.body.length + 1
  · exact Or.inl (ships_of_next hnext hle t c l)
  · -- `nextIndex` points past a log that was cut since
    right
    have hprev : (n.buildRequest p t l c).prevLogIndex = n.nextIndex p - 1 := predIndex_of_pos hnext
    refine ⟨by rw [hprev]; omega, ?_⟩
    rw [prevLogTerm_buildRequest hnext]
    unfold RaftLog.termIn
    rw [if_neg (by omega), List.getElem?_eq_none (by omega)]; rfl

theorem sim_capture (h : NodeSim cfg S v n) (hs : n.state = .leader) :
    ∃ S', Consensus.Step cfg.quorum v S S' ∧ NodeSim cfg S' v n ∧
      (v, n.currentTerm, n.commitIndex) ∈ S'.caps := by
  obtain ⟨b, hb⟩ := h.reign hs
  refine ⟨_, Consensus.Step.capture S b (by rw [h.term, h.log]; exact hb), ?_, ?_⟩
  · exact ⟨h.id, h.peers, h.term, h.log, h.commit, h.voted, h.camp, h.tally, h.reign, h.matched,
      h.next⟩
  · rw [← h.term, ← h.commit]; exact Set.mem_insert _ _

theorem sim_snap (h : NodeSim cfg S v n) (hinv : Inv cfg.quorum S) (hv : v ∈ cfg.ids)
    {t c : Nat} (hcap : (v, t, c) ∈ S.caps) {p l : NodeID} (hp : p ∈ cfg.peers v) (hl : l = v) :
    ∃ S', Consensus.Step cfg.quorum v S S' ∧ NodeSim cfg S' v n ∧
      AppendCallOK cfg S' ⟨v, p, n.buildRequest p t l c⟩ := by
  refine ⟨_, Consensus.Step.snap S t c hcap, ?_, hv, hp, hl, ?_⟩
  · exact ⟨h.id, h.peers, h.term, h.log, h.commit, h.voted, h.camp, h.tally, h.reign, h.matched,
      h.next⟩
  · obtain ⟨r, hr, hlead⟩ := hinv.logs.sourced.cap hcap
    have hnext := h.next ⟨t, r, hr, hlead⟩ p (by rw [h.peers]; exact hp)
    rcases ships_buildRequest hnext t c l with hsh | hd
    · left
      refine ⟨n.log.body, ?_, hsh⟩
      rw [← h.log]; exact Set.mem_insert _ _
    · exact Or.inr hd

variable [Journal ω]

theorem sim_submitCommand (h : NodeSim cfg S v n) (hv : v ∈ cfg.ids) (command : Command) :
    ∃ S', Relation.ReflTransGen (Consensus.Step cfg.quorum v) S S' ∧
      NodeSim cfg S' v (n.submitCommand command).1 ∧
      ∀ index term, (n.submitCommand command).2 = .appended index term →
        SubmitOK cfg S' ⟨v, command, index, term⟩ := by
  rcases n.submitCommand_cases command with ⟨_, he⟩ | ⟨hs, _⟩
  · rw [he]
    refine ⟨S, Relation.ReflTransGen.refl, h, ?_⟩
    intro index term heq; exact absurd heq (by simp)
  obtain ⟨w, hnode, hres⟩ := n.submitCommand_eq hs command
  set e : LogEntry := ⟨n.currentTerm, n.log.lastIndex + 1, command⟩ with he
  obtain ⟨b, hb⟩ := h.reign hs
  have happ := Consensus.Step.append (Q := cfg.quorum) (v := v) S b e
    (by rw [h.term, h.log]; exact hb) h.term.symm
    (by rw [h.log]; show n.log.lastIndex + 1 = _; rw [RaftLog.lastIndex_eq])
  rw [h.term, h.log] at happ
  refine ⟨_, Relation.ReflTransGen.single happ, ?_, ?_⟩
  · rw [hnode]
    refine ⟨h.id, h.peers, h.term, ?_, h.commit, h.voted, ?_, ?_, ?_, ?_, ?_⟩
    · simp
    · intro hc; dsimp only at hc; rw [hs] at hc; exact absurd hc (by simp)
    · intro hc; dsimp only at hc; rw [hs] at hc; exact absurd hc (by simp)
    · intro _; exact ⟨b, by simp⟩
    · intro _ p hp
      rcases h.matched hs p hp with h0 | ⟨hl, a, ha, hpa⟩
      · exact Or.inl h0
      · right
        dsimp only
        rw [RaftLog.body_append]
        refine ⟨by rw [List.length_append]; omega, a, Set.mem_insert_of_mem _ ha, ?_⟩
        rw [List.take_append_of_le_length hl]; exact hpa
    · intro _; exact h.next ⟨n.currentTerm, _, hb, rfl⟩
  · intro index term heq
    obtain ⟨rfl, rfl⟩ := hres index term heq
    refine ⟨hv, Nat.succ_pos _, ⟨v, b, n.log.body ++ [e]⟩, by simp [he], rfl, ?_⟩
    show (n.log.body ++ [e])[n.log.lastIndex + 1 - 1]? = some e
    rw [RaftLog.lastIndex_eq, Nat.add_sub_cancel, List.getElem?_concat_length]

/-! ## Receiving -/

/-- A request accepted into a log in sight is an `adopt`. -/
theorem sim_adopt (h : NodeSim cfg S v n) (hinv : Inv cfg.quorum S) (hst : n.state = .follower)
    {X : NodeID} {c : Nat} {L : List LogEntry} (hL : (X, n.currentTerm, c, L) ∈ S.snaps)
    {args : AppendEntriesArgs} (hsh : Ships L args) (hcm : args.leaderCommit = c)
    (hcons : Node.consistent n.log args) :
    ∃ S' a, Consensus.Step cfg.quorum v S S' ∧
      NodeSim cfg S' v
        ((n.appendNew (args.prevLogIndex + 1) args.entries).updateCommit args.leaderCommit) ∧
      (v, n.currentTerm, a) ∈ S'.acks ∧ L <+: a := by
  have hadopt := Consensus.Step.adopt (Q := cfg.quorum) (v := v) S X c L (by rw [h.term]; exact hL)
  have hbody := body_merge_of_consistent
    (matching_of_held hinv h.held (Held.snap X _ c hL)) hsh hcons
  obtain ⟨w, hw⟩ := n.appendNew_eq args.entries (args.prevLogIndex + 1)
  have hlen : n.commitIndex ≤ (graft L n.log.body).length := by
    have hback := ((Consensus.inv_step hinv hadopt).commits.node v).le_length
    dsimp only at hback
    rw [Function.update_self, Function.update_self, h.log, h.commit] at hback
    exact le_trans (le_max_left _ _) hback
  rw [hw, Node.updateCommit_eq _ _ (by dsimp only; rw [hbody]; exact hlen)]
  rw [h.term, h.log, h.commit] at hadopt
  refine ⟨_, graft L n.log.body, hadopt, ?_, Set.mem_insert _ _,
    Consensus.prefix_graft_self _ _⟩
  refine ⟨h.id, h.peers, h.term, ?_, ?_, h.voted, ?_, ?_, ?_, ?_, h.next⟩
  · dsimp only; rw [Function.update_self, hbody]
  · dsimp only; rw [Function.update_self, hbody, hcm]
  · intro hs; dsimp only at hs; rw [hst] at hs; exact absurd hs (by simp)
  · intro hs; dsimp only at hs; rw [hst] at hs; exact absurd hs (by simp)
  · intro hs; dsimp only at hs; rw [hst] at hs; exact absurd hs (by simp)
  · intro hs; dsimp only at hs; rw [hst] at hs; exact absurd hs (by simp)

theorem sim_appendEntries (h : NodeSim cfg S v n) (hinv : Inv cfg.quorum S) {c : AppendCall}
    (hc : AppendCallOK cfg S c) (hcv : c.peer = v) :
    ∃ S', Relation.ReflTransGen (Consensus.Step cfg.quorum v) S S' ∧
      NodeSim cfg S' v (n.handleAppendEntries c.args).1 ∧
      AppendReplyOK cfg S' (c, (n.handleAppendEntries c.args).2) := by
  unfold Node.handleAppendEntries
  by_cases hstale : c.args.term < n.currentTerm
  · rw [if_pos hstale]
    refine ⟨S, Relation.ReflTransGen.refl, h, hc, ?_, ?_⟩
    · intro hs; exact absurd hs (by simp)
    · intro hs; exact absurd hs (by simp)
  rw [if_neg hstale]
  obtain ⟨vt, vr, rt, w, he⟩ := n.acceptLeader_eq c.args (by omega)
  -- the node turns to the sender's term as a follower
  have hraise := Consensus.Step.raise (Q := cfg.quorum) (v := v) S
    (n.acceptLeader c.args).currentTerm (by rw [h.term, he]; dsimp only; omega)
  have hn₁ : NodeSim cfg _ v (n.acceptLeader c.args) := h.raise hinv
    (by rw [he]; dsimp only; omega) (by rw [he]) (by rw [he]) (by rw [he]) (by rw [he])
    (by rw [he]) (by rw [he])
    (by
      rw [he]; dsimp only
      intro heq; rw [if_neg (by omega)])
  have hinv₁ := Consensus.inv_step hinv hraise
  have hc₁ := hc.mono hraise.le
  have hterm : (n.acceptLeader c.args).currentTerm = c.args.term := by rw [he]
  have hstate : (n.acceptLeader c.args).state = .follower := by rw [he]
  generalize n.acceptLeader c.args = n₁ at hraise hn₁ hinv₁ hc₁ hterm hstate
  rcases n₁.checkAndAppend_cases c.args with ⟨_, hn, hfail, hconf⟩ | ⟨hcons, hsucc, hconf, hn⟩
  · refine ⟨_, Relation.ReflTransGen.single hraise, by rw [hn]; exact hn₁, hc₁, ?_, hconf⟩
    intro hs; rw [hfail] at hs; exact absurd hs (by simp)
  · rcases hc₁.ships with ⟨L, hL, hsh⟩ | hd
    · obtain ⟨S₂, a, hs₂, hn₂, ha, hpa⟩ :=
        sim_adopt hn₁ hinv₁ hstate (by rw [hterm]; exact hL) hsh rfl hcons
      refine ⟨S₂, (Relation.ReflTransGen.single hraise).tail hs₂, by rw [hn]; exact hn₂,
        hc₁.mono hs₂.le, ?_, ?_⟩
      · intro _
        refine ⟨L, a, hs₂.le.snaps hL, hsh, ?_, hpa⟩
        dsimp only
        rw [hcv, ← hterm]; exact ha
      · intro hpos; rw [hconf] at hpos; exact absurd hpos (lt_irrefl _)
    · exact absurd hcons (hd.not_consistent hinv₁ hn₁.held)

/-! ## Committing -/

omit [Journal ω] in
/-- The nodes counted by `advanceCommitIndexLocked` form a quorum. -/
theorem isQuorum_of_sorted (h : NodeSim cfg S v n) (hinv : Inv cfg.quorum S) (hv : v ∈ cfg.ids)
    (hs : n.state = .leader) {N : Nat} (hN : 0 < N) (hNl : N ≤ n.log.body.length)
    (hsort : ((n.log.lastIndex :: n.peers.map n.matchIndex).insertionSort (· ≥ ·))[
      (n.peers.length + 1) / 2]? = some N) :
    cfg.quorum.IsQuorum {u | ∃ a, (u, n.currentTerm, a) ∈ S.acks ∧ n.log.body.take N <+: a} := by
  obtain ⟨hk, hNk⟩ := List.getElem?_eq_some_iff.mp hsort
  have hcount := (le_getElem_insertionSort_iff _ hk).mp hNk.ge
  rw [RaftLog.lastIndex_eq, List.countP_cons, List.countP_map, List.countP_eq_length_filter] at hcount
  rw [if_pos (by simpa using hNl)] at hcount
  obtain ⟨b, hb⟩ := h.reign hs
  have hperm := cfg.peers_perm v hv
  have hnd : (cfg.peers v).Nodup := hperm.nodup_iff.mpr (cfg.nodup.erase v)
  refine ⟨v :: n.peers.filter fun p => N ≤ n.matchIndex p, ?_, ?_, ?_, ?_⟩
  · rw [List.nodup_cons, h.peers]
    refine ⟨?_, hnd.filter _⟩
    intro hmem
    exact (cfg.mem_peers hv (List.mem_of_mem_filter hmem)).2 rfl
  · intro u hu
    rcases List.mem_cons.mp hu with rfl | hu
    · exact hv
    · rw [h.peers] at hu
      exact (cfg.mem_peers hv (List.mem_of_mem_filter hu)).1
  · intro u hu
    rcases List.mem_cons.mp hu with rfl | hu
    · -- the leader counts with its whole log
      exact ⟨n.log.body, hinv.logs.reigns.self_ack hb, List.take_prefix _ _⟩
    · obtain ⟨hup, hum⟩ := List.mem_filter.mp hu
      have hum' : N ≤ n.matchIndex u := by simpa using hum
      rcases h.matched hs u hup with h0 | ⟨_, a, ha, hpa⟩
      · omega
      · exact ⟨a, ha, (List.take_prefix_take_left hum').trans hpa⟩
  · rw [List.length_cons]
    have hlen := cfg.length_peers hv
    rw [h.peers] at hcount ⊢
    have hfun : ((fun x => decide (N ≤ x)) ∘ n.matchIndex) = fun p => decide (N ≤ n.matchIndex p) :=
      rfl
    rw [hfun] at hcount
    omega

omit [Journal ω] in
theorem sim_advance (h : NodeSim cfg S v n) (hinv : Inv cfg.quorum S) (hv : v ∈ cfg.ids)
    (hs : n.state = .leader) :
    ∃ S', Relation.ReflTransGen (Consensus.Step cfg.quorum v) S S' ∧
      NodeSim cfg S' v n.advanceCommitIndexLocked := by
  unfold Node.advanceCommitIndexLocked
  dsimp only
  split
  · exact ⟨S, Relation.ReflTransGen.refl, h⟩
  rename_i N hN
  split
  swap
  · exact ⟨S, Relation.ReflTransGen.refl, h⟩
  rename_i hguard
  obtain ⟨hgt, hcont, hterm⟩ := hguard
  have hNl := (RaftLog.contains_iff _ _).mp hcont
  obtain ⟨b, hb⟩ := h.reign hs
  -- an entry of the leader's own term lies beyond the log it was elected with
  have hbN : b.length < N := by
    by_contra hle
    obtain ⟨P, e, hP, hlen, _, _, hte⟩ := exists_at (L := n.log.body) (by omega) hNl
    have hPb : P ++ [e] <+: b := by
      refine List.prefix_of_prefix_length_le hP (hinv.logs.reigns.base_prefix hb) ?_
      rw [List.length_append, List.length_singleton]; omega
    have hlt : e.term < n.currentTerm :=
      hinv.logs.reigns.base_term hb e (hPb.subset (by simp))
    rw [RaftLog.termAt_eq, hte] at hterm
    omega
  have hq := isQuorum_of_sorted h hinv hv hs (by omega) hNl hN
  have hdec := Consensus.Step.decide (Q := cfg.quorum) (v := v) S b N
    (by rw [h.term, h.log]; exact hb) hbN (by rw [h.log]; exact hNl)
    (by rw [h.term, h.log]; exact hq) (by rw [h.commit]; omega)
  refine ⟨_, Relation.ReflTransGen.single hdec, ?_⟩
  exact ⟨h.id, h.peers, h.term, h.log, by simp, h.voted, h.camp, h.tally, h.reign, h.matched,
    h.next⟩

omit [Journal ω] in
/-- A success that covers the log up to `m` may be counted. -/
theorem sim_acked (h : NodeSim cfg S v n) (hinv : Inv cfg.quorum S) (hv : v ∈ cfg.ids)
    (hs : n.state = .leader) {p : NodeID} {m : Nat} {a : List LogEntry}
    (hm : m ≤ n.log.body.length) (ha : (p, n.currentTerm, a) ∈ S.acks)
    (hpa : n.log.body.take m <+: a) :
    ∃ S', Relation.ReflTransGen (Consensus.Step cfg.quorum v) S S' ∧
      NodeSim cfg S' v (n.ackedLocked p (m + 1)) := by
  unfold Node.ackedLocked
  dsimp only
  rw [Nat.add_sub_cancel]
  have hnext : ∀ q ∈ n.peers, 1 ≤ n.nextIndex q := by
    obtain ⟨b, hb⟩ := h.reign hs
    exact h.next ⟨_, _, hb, rfl⟩
  -- raising `nextIndex`
  have h₁ : NodeSim cfg S v (if m + 1 > n.nextIndex p then
      { n with nextIndex := fun q => if q = p then m + 1 else n.nextIndex q } else n) := by
    split
    · refine ⟨h.id, h.peers, h.term, h.log, h.commit, h.voted, h.camp, h.tally, h.reign,
        h.matched, ?_⟩
      intro _ q hq
      dsimp only
      split
      · omega
      · exact hnext q hq
    · exact h
  have hs₁ : (if m + 1 > n.nextIndex p then
      { n with nextIndex := fun q => if q = p then m + 1 else n.nextIndex q } else n).state
        = .leader := by split <;> exact hs
  have hfix : ∀ n₁ : Node ω, n₁ = (if m + 1 > n.nextIndex p then
      { n with nextIndex := fun q => if q = p then m + 1 else n.nextIndex q } else n) →
      n₁.log = n.log ∧ n₁.currentTerm = n.currentTerm := by
    intro n₁ hn₁; rw [hn₁]; split <;> exact ⟨rfl, rfl⟩
  obtain ⟨hlog₁, hterm₁⟩ := hfix _ rfl
  generalize (if m + 1 > n.nextIndex p then
    ({ n with nextIndex := fun q => if q = p then m + 1 else n.nextIndex q } : Node ω) else n) = n₁
    at h₁ hs₁ hlog₁ hterm₁ ⊢
  -- raising `matchIndex`
  have h₂ : NodeSim cfg S v (if m > n₁.matchIndex p then
      { n₁ with matchIndex := fun q => if q = p then m else n₁.matchIndex q } else n₁) := by
    split
    · refine ⟨h₁.id, h₁.peers, h₁.term, h₁.log, h₁.commit, h₁.voted, h₁.camp, h₁.tally, h₁.reign,
        ?_, h₁.next⟩
      intro _ q hq
      dsimp only
      by_cases hqp : q = p
      · right
        rw [if_pos hqp, hlog₁, hterm₁, hqp]
        exact ⟨hm, a, ha, hpa⟩
      · rw [if_neg hqp]; exact h₁.matched hs₁ q hq
    · exact h₁
  refine sim_advance h₂ hinv hv ?_
  split <;> exact hs₁

omit [Journal ω] in
theorem sim_conflict (h : NodeSim cfg S v n) (p : NodeID) {reply : AppendEntriesReply}
    (hconf : reply.conflictTerm > 0 → 1 ≤ reply.conflictIndex) :
    NodeSim cfg S v (n.handleConflictLocked p reply) := by
  have set : ∀ idx, 1 ≤ idx → NodeSim cfg S v
      { n with nextIndex := fun q => if q = p then idx else n.nextIndex q } := by
    intro idx hidx
    refine ⟨h.id, h.peers, h.term, h.log, h.commit, h.voted, h.camp, h.tally, h.reign, h.matched,
      ?_⟩
    intro hr q hq
    dsimp only
    split
    · exact hidx
    · exact h.next hr q hq
  unfold Node.handleConflictLocked
  dsimp only
  split
  · rename_i hct
    split
    · exact set _ (by omega)
    · exact set _ (hconf hct)
  · split
    · rename_i hci; exact set _ hci
    · split
      · exact set _ (by omega)
      · exact h

theorem sim_appendReply (h : NodeSim cfg S v n) (hinv : Inv cfg.quorum S) (hv : v ∈ cfg.ids)
    {c : AppendCall} {reply : AppendEntriesReply} (hr : AppendReplyOK cfg S (c, reply))
    (hcv : c.caller = v) :
    ∃ S', Relation.ReflTransGen (Consensus.Step cfg.quorum v) S S' ∧
      NodeSim cfg S' v (n.handleAppendReply c.args.term c.peer c.args.entries reply) := by
  unfold Node.handleAppendReply
  by_cases hstale : n.state ≠ .leader ∨ n.currentTerm ≠ c.args.term
  · rw [if_pos hstale]; exact ⟨S, Relation.ReflTransGen.refl, h⟩
  rw [if_neg hstale]
  obtain ⟨hs, hterm⟩ : n.state = .leader ∧ n.currentTerm = c.args.term := by
    constructor
    · by_contra hne; exact hstale (Or.inl hne)
    · by_contra hne; exact hstale (Or.inr hne)
  by_cases hhi : reply.term > n.currentTerm
  · rw [if_pos hhi]
    obtain ⟨S', hs', hn⟩ := sim_becomeFollower h hinv reply.term
    exact ⟨S', Relation.ReflTransGen.single hs', hn⟩
  rw [if_neg hhi]
  by_cases hsucc : reply.success = true
  swap
  · rw [if_neg hsucc]
    exact ⟨S, Relation.ReflTransGen.refl, sim_conflict h c.peer hr.conflict⟩
  rw [if_pos hsucc]
  obtain ⟨L, a, hL, hsh, ha, hpa⟩ := hr.success hsucc
  dsimp only at hL hsh ha
  cases hlast : c.args.entries.getLast? with
  | none => exact ⟨S, Relation.ReflTransGen.refl, h⟩
  | some last =>
      -- the leader is still in office, so what it shipped is a prefix of its log
      have hLn : L <+: n.log.body := by
        obtain ⟨r, hrn, hlead, hp⟩ := hinv.logs.sourced.snap hL
        obtain ⟨b, hb⟩ := h.reign hs
        rw [← hterm, hb] at hrn
        obtain rfl := Option.some.inj hrn
        rcases hp with hp | hlt
        · exact hp
        · rw [hcv, h.term, hterm] at hlt
          exact absurd hlt (lt_irrefl _)
      have hidx : last.index = L.length := by
        have hlastL : L.getLast? = some last := by
          rw [← hlast, hsh.entries, List.getLast?_drop]
          split
          · rename_i hge
            rw [hsh.entries, List.drop_eq_nil_iff.mpr hge] at hlast
            exact absurd hlast (by simp)
          · rfl
        obtain ⟨P, hP⟩ := List.getLast?_eq_some_iff.mp hlastL
        have := hinv.logs.indexed L (Held.snap _ _ _ hL) P last (by rw [← hP])
        rw [hP, List.length_append, List.length_singleton]
        exact this
      dsimp only
      rw [hidx]
      refine sim_acked h hinv hv hs hLn.length_le (by rw [hterm]; exact ha) ?_
      rw [← List.prefix_iff_eq_take.mp hLn]; exact hpa

end GammaFlow.Raft
