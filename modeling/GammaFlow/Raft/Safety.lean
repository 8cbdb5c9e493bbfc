import GammaFlow.Raft.Refinement

/-!
# What the cluster guarantees

The safety properties of the cluster, read off the abstract protocol through the
simulation: log matching, leader completeness and state machine safety. None of
them needs a guard at the truncation in `HandleAppendEntries`; that no committed
entry is ever truncated there is a consequence.

Positions are those of the source: `entries[k]?` is the entry with index `k`, and
`entries[0]?` is the sentinel.
-/

namespace GammaFlow.Raft

open GammaFlow.Storage
open GammaFlow.Consensus (Inv Held)

theorem RaftLog.getElem?_entries (l : RaftLog) {k : Nat} (hk : 1 ≤ k) :
    l.entries[k]? = l.body[k - 1]? := by
  obtain ⟨m, rfl⟩ : ∃ m, k = m + 1 := ⟨k - 1, by omega⟩
  rw [entries_eq, List.getElem?_cons_succ, Nat.add_sub_cancel]

/-- Logs that agree up to `k` hold the same entry at each place up to `k`. -/
theorem same_entry {l m : RaftLog} {k N : Nat} (h : l.body.take N = m.body.take N)
    (hN : N ≤ l.body.length) (h1 : 1 ≤ k) (hk : k ≤ N) :
    ∃ e, l.entries[k]? = some e ∧ m.entries[k]? = some e := by
  rw [l.getElem?_entries h1, m.getElem?_entries h1]
  have hl : (l.body.take N)[k - 1]? = l.body[k - 1]? := List.getElem?_take_of_lt (by omega)
  have hm : (m.body.take N)[k - 1]? = m.body[k - 1]? := List.getElem?_take_of_lt (by omega)
  refine ⟨l.body.get ⟨k - 1, by omega⟩, ?_, ?_⟩
  · exact List.getElem?_eq_getElem (by omega)
  · rw [← hm, ← h, hl]
    exact List.getElem?_eq_getElem (by omega)

variable {ω : Type} [Journal ω] {cfg : Config ω} {w w' : Cluster ω} {S : Abs}

/-! ## State machine safety -/

/-- What two nodes have committed, they have in common, then and later. -/
theorem committed_agree (hw : Cluster.Reachable cfg w) (hr : Cluster.Run cfg w w') {i j : NodeID}
    {k : Nat} (hi : k ≤ (w.nodes i).commitIndex) (hj : k ≤ (w'.nodes j).commitIndex) :
    (w.nodes i).log.body.take k = (w'.nodes j).log.body.take k ∧
      k ≤ (w.nodes i).log.body.length ∧ k ≤ (w'.nodes j).log.body.length := by
  obtain ⟨S, h⟩ := sim_reachable hw
  obtain ⟨S', hrun, h'⟩ := sim_run h hr
  rw [← (h.nodes i).commit] at hi
  rw [← (h'.nodes j).commit] at hj
  have hag := Consensus.agreement h.inv hrun hi hj
  rw [(h.nodes i).log, (h'.nodes j).log] at hag
  exact hag

theorem commitIndex_mono (hw : Cluster.Reachable cfg w) (hr : Cluster.Run cfg w w') (i : NodeID) :
    (w.nodes i).commitIndex ≤ (w'.nodes i).commitIndex := by
  obtain ⟨S, h⟩ := sim_reachable hw
  obtain ⟨S', hrun, h'⟩ := sim_run h hr
  rw [← (h.nodes i).commit, ← (h'.nodes i).commit]
  exact (Consensus.le_of_steps hrun).commit i

/--
**State machine safety.** An index committed on `i` at one moment of a run and on
`j` at another holds the same entry on both, and no step changes the entry that a
node holds at a committed index.
-/
theorem state_machine_safety (hw : Cluster.Reachable cfg w) (hw' : Cluster.Reachable cfg w')
    (hr : Cluster.Run cfg w w' ∨ Cluster.Run cfg w' w) (i j : NodeID) {k : Nat} (hk : 1 ≤ k)
    (hi : k ≤ (w.nodes i).commitIndex) (hj : k ≤ (w'.nodes j).commitIndex) :
    (∃ e, (w.nodes i).log.entries[k]? = some e ∧ (w'.nodes j).log.entries[k]? = some e) ∧
      ∀ w₂, Cluster.Step cfg w w₂ →
        (w₂.nodes i).log.entries[k]? = (w.nodes i).log.entries[k]? := by
  refine ⟨?_, ?_⟩
  · rcases hr with hr | hr
    · obtain ⟨heq, hlen, _⟩ := committed_agree hw hr hi hj
      exact same_entry heq hlen hk le_rfl
    · obtain ⟨heq, _, hlen⟩ := committed_agree hw' hr hj hi
      exact same_entry heq.symm hlen hk le_rfl
  · intro w₂ hs
    have hr₂ : Cluster.Run cfg w w₂ := Relation.ReflTransGen.single hs
    obtain ⟨heq, hlen, _⟩ := committed_agree hw hr₂ hi (hi.trans (commitIndex_mono hw hr₂ i))
    obtain ⟨e, he, he₂⟩ := same_entry heq hlen hk le_rfl
    rw [he, he₂]

theorem state_machine_safety_abc : ∃ w w', Cluster.Reachable volatileABC w ∧
    Cluster.Run volatileABC w w' ∧ 1 ≤ (w.nodes "b").commitIndex ∧ 1 ≤ (w'.nodes "c").commitIndex ∧
      ∃ e, (w.nodes "b").log.entries[1]? = some e ∧ (w'.nodes "c").log.entries[1]? = some e := by
  -- `b` commits on the reply of `c`, and a heartbeat tells `c`
  obtain ⟨w, hw, h⟩ := Cluster.exists_run volatileABC (Cluster.init volatileABC)
    (replicateEvents ++ [.appendReply 0])
    (fun w => 1 ≤ (w.nodes "b").commitIndex ∧
      ∃ w' ∈ w.exec volatileABC [.sendHeartbeats "b", .readHeartbeat 1, .appendEntries 1],
        1 ≤ (w'.nodes "c").commitIndex) (by decide +kernel)
  obtain ⟨w', hr, h'⟩ := Cluster.exists_run _ _ _ _ h.2
  exact ⟨w, w', hw, hr, h.1, h',
    (state_machine_safety hw (hw.trans hr) (Or.inl hr) "b" "c" le_rfl h.1 h').1⟩

/-! ## Leader completeness -/

/-- What a node has committed, every leader of a later term holds, at any moment of the run. -/
theorem committed_led (hw : Cluster.Reachable cfg w) (hw' : Cluster.Reachable cfg w')
    (hr : Cluster.Run cfg w w' ∨ Cluster.Run cfg w' w) {A B : NodeID}
    (hB : (w'.nodes B).state = .leader)
    (ht : (w.nodes A).currentTerm < (w'.nodes B).currentTerm) :
    (w.nodes A).log.body.take (w.nodes A).commitIndex <+: (w'.nodes B).log.body := by
  rcases hr with hr | hr
  · obtain ⟨S, h⟩ := sim_reachable hw
    obtain ⟨S', hrun, h'⟩ := sim_run h hr
    obtain ⟨b, hb⟩ := (h'.nodes B).reign hB
    have hback := (h.inv.commits.node A).mono (Consensus.le_of_steps hrun) le_rfl
    rw [(h.nodes A).term, (h.nodes A).commit, (h.nodes A).log] at hback
    exact (hback.prefix_base h'.inv.complete hb ht).trans (h'.inv.logs.reigns.base_prefix hb)
  · -- the reign began before the commit, but what it began with has not changed since
    obtain ⟨S', h'⟩ := sim_reachable hw'
    obtain ⟨S, hrun, h⟩ := sim_run h' hr
    obtain ⟨b, hb⟩ := (h'.nodes B).reign hB
    obtain ⟨r, hrS, _, hbase, _⟩ := (Consensus.le_of_steps hrun).reign _ _ hb
    have hback := h.inv.commits.node A
    rw [(h.nodes A).term, (h.nodes A).commit, (h.nodes A).log] at hback
    have hp := hback.prefix_base h.inv.complete hrS ht
    rw [hbase] at hp
    exact hp.trans (h'.inv.logs.reigns.base_prefix hb)

/--
**Leader completeness.** When `A` raises its commit index on an append reply, as only
a leader does, whoever leads a later term, at whatever moment of the run, holds the
entries that `A` then holds up to that index.
-/
theorem leader_completeness {w₁ w₂ : Cluster ω} {k : Nat} {A B : NodeID}
    (hw : Cluster.Reachable cfg w) (hs : w.act cfg (.appendReply k) = some w₁)
    (hset : (w.nodes A).commitIndex < (w₁.nodes A).commitIndex)
    (hw₂ : Cluster.Reachable cfg w₂) (hr : Cluster.Run cfg w₁ w₂ ∨ Cluster.Run cfg w₂ w)
    (hB : (w₂.nodes B).state = .leader)
    (ht : (w.nodes A).currentTerm < (w₂.nodes B).currentTerm) :
    ∀ m, 1 ≤ m → m ≤ (w₁.nodes A).commitIndex →
      ∃ e, (w₁.nodes A).log.entries[m]? = some e ∧ (w₂.nodes B).log.entries[m]? = some e := by
  have hstep : Cluster.Step cfg w w₁ := ⟨_, hs⟩
  have hw₁ : Cluster.Reachable cfg w₁ := Relation.ReflTransGen.tail hw hstep
  have hr₁ : Cluster.Run cfg w₁ w₂ ∨ Cluster.Run cfg w₂ w₁ := by
    rcases hr with hr | hr
    · exact Or.inl hr
    · exact Or.inr (Relation.ReflTransGen.tail hr hstep)
  -- the section that advances the commit index does not touch the term
  have hterm : (w₁.nodes A).currentTerm = (w.nodes A).currentTerm := by
    rcases act_nodes hs A with heq | hst
    · rw [heq] at hset; exact absurd hset (lt_irrefl _)
    · generalize w₁.nodes A = n₁ at hst hset ⊢
      cases hst with
      | appendReply _ c r hc hp => exact Node.handleAppendReply_term_of_commit hset
  have hpre := committed_led hw₁ hw₂ hr₁ hB (by rw [hterm]; exact ht)
  have hlen : (w₁.nodes A).commitIndex ≤ (w₁.nodes A).log.body.length :=
    (committed_agree hw₁ Relation.ReflTransGen.refl le_rfl (le_refl (w₁.nodes A).commitIndex)).2.1
  have heq : (w₁.nodes A).log.body.take (w₁.nodes A).commitIndex
      = (w₂.nodes B).log.body.take (w₁.nodes A).commitIndex := by
    have := List.prefix_iff_eq_take.mp hpre
    rwa [List.length_take, Nat.min_eq_left hlen] at this
  intro m h1 hm
  exact same_entry heq hlen h1 hm

/-- Node `c` takes over in term `2` with the vote of `a`, which never saw the entry. -/
theorem leader_completeness_abc : ∃ w w₁ w₂, Cluster.Reachable volatileABC w ∧
    w.act volatileABC (.appendReply 0) = some w₁ ∧ Cluster.Run volatileABC w₁ w₂ ∧
    (w.nodes "b").currentTerm < (w₂.nodes "c").currentTerm ∧
      ∃ e, (w₁.nodes "b").log.entries[1]? = some e ∧ (w₂.nodes "c").log.entries[1]? = some e := by
  obtain ⟨w, hw, h⟩ := Cluster.exists_run volatileABC (Cluster.init volatileABC) replicateEvents
    (fun w => ∃ w₁ ∈ w.act volatileABC (.appendReply 0),
      (w.nodes "b").commitIndex < (w₁.nodes "b").commitIndex ∧
      ∃ w₂ ∈ w₁.exec volatileABC [.startElection "c", .requestVote 2, .voteReply 1],
        (w₂.nodes "c").state = .leader ∧
        (w.nodes "b").currentTerm < (w₂.nodes "c").currentTerm) (by decide +kernel)
  obtain ⟨w₁, hs, hset, h⟩ := h
  obtain ⟨w₂, hr, hB, ht⟩ := Cluster.exists_run _ _ _ _ h
  exact ⟨w, w₁, w₂, hw, hs, hr, ht,
    leader_completeness hw hs hset ((Relation.ReflTransGen.tail hw ⟨_, hs⟩).trans hr)
      (Or.inl hr) hB ht 1 le_rfl (by omega)⟩

/-! ## Log matching -/

theorem prefix_of_getElem? {L : List LogEntry} {k : Nat} {e : LogEntry} (h : L[k]? = some e) :
    L.take k ++ [e] <+: L ∧ (L.take k).length = k := by
  obtain ⟨hk, rfl⟩ := List.getElem?_eq_some_iff.mp h
  refine ⟨?_, by rw [List.length_take]; omega⟩
  rw [List.take_append_getElem]
  exact List.take_prefix _ _

/-- Entries stand at their index. -/
theorem entry_index (hw : Cluster.Reachable cfg w) (i : NodeID) {k : Nat} {e : LogEntry}
    (he : (w.nodes i).log.entries[k]? = some e) : e.index = k := by
  obtain ⟨S, h⟩ := sim_reachable hw
  rcases Nat.eq_zero_or_pos k with rfl | hk
  · rw [RaftLog.entries_eq] at he
    rw [← Option.some.inj he]; rfl
  · rw [RaftLog.getElem?_entries _ hk] at he
    obtain ⟨hp, hlen⟩ := prefix_of_getElem? he
    have := h.inv.logs.indexed _ (h.nodes i).held _ _ hp
    rw [hlen] at this
    exact this.trans (by omega)

omit [Journal ω] in
/-- Terms do not fall along a log. -/
theorem term_mono_of_held (h : Inv cfg.quorum S) {L : List LogEntry} (hL : Held S L) {k m : Nat}
    {e e' : LogEntry} (hkm : k ≤ m) (he : L[k]? = some e) (he' : L[m]? = some e') :
    e.term ≤ e'.term := by
  obtain ⟨hp, hlen⟩ := prefix_of_getElem? he'
  obtain ⟨r, hr, hpr, _⟩ := h.logs.rooted L hL _ _ hp
  -- both stand in the log of the reign that wrote the later one
  refine h.logs.reigns.entry_term hr (e := e) (hpr.subset ?_)
  rcases Nat.lt_or_ge k m with hlt | hge
  · rw [List.mem_append]
    left
    rw [← List.getElem?_take_of_lt hlt] at he
    exact List.mem_of_getElem? he
  · obtain rfl : k = m := by omega
    rw [he'] at he
    rw [Option.some.inj he]; simp

theorem entry_term_mono (hw : Cluster.Reachable cfg w) (i : NodeID) {k m : Nat} {e e' : LogEntry}
    (hk : 1 ≤ k) (hkm : k ≤ m) (he : (w.nodes i).log.entries[k]? = some e)
    (he' : (w.nodes i).log.entries[m]? = some e') : e.term ≤ e'.term := by
  obtain ⟨S, h⟩ := sim_reachable hw
  rw [RaftLog.getElem?_entries _ hk] at he
  rw [RaftLog.getElem?_entries _ (by omega)] at he'
  exact term_mono_of_held h.inv (h.nodes i).held (by omega) he he'

theorem pairwise_term (hw : Cluster.Reachable cfg w) (i : NodeID) :
    (w.nodes i).log.body.Pairwise fun a b => a.term ≤ b.term := by
  rw [List.pairwise_iff_getElem]
  intro j k hj hk hjk
  refine entry_term_mono hw i (k := j + 1) (m := k + 1) (by omega) (by omega) ?_ ?_
  · rw [RaftLog.getElem?_entries _ (by omega), Nat.add_sub_cancel]
    exact List.getElem?_eq_getElem hj
  · rw [RaftLog.getElem?_entries _ (by omega), Nat.add_sub_cancel]
    exact List.getElem?_eq_getElem hk

/-- A leader holds no entry of a later term. -/
theorem leader_entry_term (hw : Cluster.Reachable cfg w) {i : NodeID}
    (hl : (w.nodes i).state = .leader) {k : Nat} {e : LogEntry}
    (he : (w.nodes i).log.entries[k]? = some e) : e.term ≤ (w.nodes i).currentTerm := by
  obtain ⟨S, h⟩ := sim_reachable hw
  rcases Nat.eq_zero_or_pos k with rfl | hk
  · rw [RaftLog.entries_eq] at he
    rw [← Option.some.inj he]; exact Nat.zero_le _
  · rw [RaftLog.getElem?_entries _ hk] at he
    obtain ⟨b, hb⟩ := (h.nodes i).reign hl
    exact h.inv.logs.reigns.entry_term hb (List.mem_of_getElem? he)

/-- On entering leadership, a log holds only entries of earlier terms. -/
theorem enters_leader_term (hw : Cluster.Reachable cfg w) {ev : Event}
    (hs : w.act cfg ev = some w') {i : NodeID} (hn : (w.nodes i).state ≠ .leader)
    (hl : (w'.nodes i).state = .leader) :
    ∀ e ∈ (w'.nodes i).log.body, e.term < (w'.nodes i).currentTerm := by
  obtain ⟨k, c, r, _, _, _, hn'⟩ := enters_leader hs hn hl
  have hl' := hl
  rw [hn'] at hl'
  obtain ⟨hcand, _, _, _, _, hbecome⟩ := Node.handleVoteReply_leader hn hl'
  rw [hbecome] at hn'
  have hlog : (w'.nodes i).log = (w.nodes i).log := by rw [hn']; rfl
  have hterm : (w'.nodes i).currentTerm = (w.nodes i).currentTerm := by rw [hn']; rfl
  obtain ⟨S, h⟩ := sim_reachable hw
  obtain ⟨S', hrun, h'⟩ := sim_step h hs
  obtain ⟨b, hb⟩ := (h'.nodes i).reign hl
  -- the reign began with the log of the campaign, which is the log still
  have hcamp := (Consensus.le_of_steps hrun).camps ((h.nodes i).camp hcand).1
  rw [← hterm, ← hlog] at hcamp
  obtain rfl := h'.inv.ballots.camp_unique hcamp (h'.inv.ballots.reign_camp hb)
  exact h'.inv.logs.reigns.base_term hb

/--
**Log matching.** In every reachable state: entries stand at their index; terms do
not fall along a log; logs that have a term in common at some index are the same up
to it; no leader holds an entry beyond its term; and whoever becomes leader holds
no entry of its new term.
-/
theorem log_matching (hw : Cluster.Reachable cfg w) :
    (∀ i (k : Nat) (e : LogEntry), (w.nodes i).log.entries[k]? = some e → e.index = k) ∧
    (∀ i k m (e e' : LogEntry), 1 ≤ k → k ≤ m → (w.nodes i).log.entries[k]? = some e →
      (w.nodes i).log.entries[m]? = some e' → e.term ≤ e'.term) ∧
    (∀ i j k (e e' : LogEntry), 1 ≤ k → (w.nodes i).log.entries[k]? = some e →
      (w.nodes j).log.entries[k]? = some e' → e.term = e'.term →
      ∀ m, 1 ≤ m → m ≤ k → ∃ x, (w.nodes i).log.entries[m]? = some x ∧
        (w.nodes j).log.entries[m]? = some x) ∧
    (∀ i (k : Nat) (e : LogEntry), (w.nodes i).state = .leader → (w.nodes i).log.entries[k]? = some e →
      e.term ≤ (w.nodes i).currentTerm) ∧
    (∀ w' i, Cluster.Step cfg w w' → (w.nodes i).state ≠ .leader → (w'.nodes i).state = .leader →
      ∀ k (e : LogEntry), 1 ≤ k → (w'.nodes i).log.entries[k]? = some e →
        e.term ≠ (w'.nodes i).currentTerm) := by
  obtain ⟨S, h⟩ := sim_reachable hw
  refine ⟨?_, ?_, ?_, ?_, ?_⟩
  · intro i k e he
    exact entry_index hw i he
  · intro i k m e e' h1 hkm he he'
    exact entry_term_mono hw i h1 hkm he he'
  · intro i j k e e' h1 he he' ht m hm1 hm
    rw [RaftLog.getElem?_entries _ h1] at he he'
    have hk := (List.getElem?_eq_some_iff.mp he).1
    have hk' := (List.getElem?_eq_some_iff.mp he').1
    have heq := matching_of_held h.inv (h.nodes i).held (h.nodes j).held k h1 (by omega) (by omega)
      (by unfold RaftLog.termIn; rw [if_neg (by omega), if_neg (by omega), he, he']; exact ht)
    exact same_entry heq (by omega) hm1 hm
  · intro i k e hl he
    exact leader_entry_term hw hl he
  · intro w' i hs hn hl k e h1 he
    obtain ⟨ev, hs⟩ := hs
    rw [RaftLog.getElem?_entries _ h1] at he
    exact (enters_leader_term hw hs hn hl e (List.mem_of_getElem? he)).ne

theorem log_matching_abc : ∃ w, Cluster.Reachable volatileABC w ∧
    (w.nodes "b").state = .leader ∧ ∃ e, e.index = 1 ∧ e.term ≤ (w.nodes "b").currentTerm ∧
      (w.nodes "b").log.entries[1]? = some e ∧ (w.nodes "c").log.entries[1]? = some e := by
  obtain ⟨w, hw, h⟩ := Cluster.exists_run volatileABC (Cluster.init volatileABC) replicateEvents
    (fun w => (w.nodes "b").state = .leader ∧
      (w.nodes "b").log.entries[1]? = some (⟨1, 1, [1]⟩ : LogEntry) ∧
      (w.nodes "c").log.entries[1]? = some (⟨1, 1, [1]⟩ : LogEntry)) (by decide +kernel)
  obtain ⟨hl, hb, hc⟩ := h
  obtain ⟨hidx, _, hmatch, hlead, _⟩ := log_matching hw
  obtain ⟨x, hx, hx'⟩ := hmatch "b" "c" 1 _ _ le_rfl hb hc rfl 1 le_rfl le_rfl
  exact ⟨w, hw, hl, x, hidx "b" 1 x hx, hlead "b" 1 x hl hx, hx, hx'⟩

end GammaFlow.Raft
