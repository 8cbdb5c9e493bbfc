import GammaFlow.Raft.Safety

/-!
# How far `nextIndex` goes

A leader starts with `nextIndex` just past the end of its log. Successes move it to the
end of what was sent, conflict hints to where the follower's log ends or a term begins,
and the fallback one back. All of these point into the log the request was built from,
and that log is still a part of the leader's while it leads the same term.

A heartbeat goroutine may build a request after its node was deposed, from a log that
was cut in the meantime. Such a request may point anywhere, but by then the node has left
the term of the request, and it never handles the reply.
-/

namespace GammaFlow.Raft

open GammaFlow.Storage
open RaftLog

variable {ω : Type} [Journal ω] {cfg : Config ω} {w w' : Cluster ω} {ev : Event}

/-! ## One node -/

namespace Node

/-- The hint of a refused request points into what the request presupposed. -/
theorem handleAppendEntries_conflict_le (n : Node ω) (args : AppendEntriesArgs) :
    (n.handleAppendEntries args).2.conflictIndex ≤ args.prevLogIndex := by
  by_cases hlt : args.term < n.currentTerm
  · unfold handleAppendEntries
    rw [if_pos hlt]
    exact Nat.zero_le _
  by_cases hc : consistent n.log args
  · rw [(handleAppendEntries_accepts (by omega) hc).1]
    exact Nat.zero_le _
  rw [(handleAppendEntries_refuses (by omega) hc).1, conflictHint]
  have hpos : 1 ≤ args.prevLogIndex := by
    by_contra h0
    exact hc (Or.inl (by omega))
  split
  · assumption
  · rw [termAt_eq]
    exact (n.log.findFirstIndexOfTerm_le hpos (by omega)).2

omit [Journal ω] in
theorem ackedLocked_next (n : Node ω) (p q : NodeID) (k : Nat) :
    (n.ackedLocked p k).nextIndex q = n.nextIndex q ∨ (n.ackedLocked p k).nextIndex q = k := by
  have hadvance : ∀ m : Node ω, m.advanceCommitIndexLocked.nextIndex = m.nextIndex := by
    intro m
    obtain ⟨c, _, he⟩ := m.advanceCommitIndexLocked_eq
    rw [he]
  have hmatch : ∀ (m : Node ω) (k : Nat), (if k > m.matchIndex p then
      ({ m with matchIndex := fun q => if q = p then k else m.matchIndex q } : Node ω)
      else m).nextIndex = m.nextIndex := by
    intro m k
    split <;> rfl
  unfold ackedLocked
  dsimp only
  rw [hadvance, hmatch]
  split
  · dsimp only
    split
    · exact Or.inr rfl
    · exact Or.inl rfl
  · exact Or.inl rfl

omit [Journal ω] in
theorem conflictNext_le {n : Node ω} {p : NodeID} {r : AppendEntriesReply}
    (hn : n.nextIndex p ≤ n.log.body.length + 1)
    (hconf : r.conflictIndex ≤ n.log.body.length + 1) :
    n.conflictNext p r ≤ n.log.body.length + 1 := by
  have hfind := n.log.findLastFrom_le r.conflictTerm n.log.lastIndex
  unfold conflictNext
  rw [lastIndex_eq] at hfind ⊢
  split
  · split <;> omega
  · split
    · exact hconf
    · split <;> omega

/-- `nextIndex` moves to where a reply of the present term says, or one back. -/
theorem handleAppendReply_next_le {n : Node ω} {t : Nat} {p : NodeID} {es : List LogEntry}
    {r : AppendEntriesReply} (hn : ∀ q ∈ n.peers, n.nextIndex q ≤ n.log.body.length + 1)
    (hreply : n.state = .leader → n.currentTerm = t →
      r.conflictIndex ≤ n.log.body.length + 1 ∧
      ∀ last, es.getLast? = some last → last.index ≤ n.log.body.length) :
    ∀ q ∈ n.peers, (n.handleAppendReply t p es r).nextIndex q ≤ n.log.body.length + 1 := by
  intro q hq
  have hold := hn q hq
  unfold handleAppendReply
  split
  · exact hold
  rename_i hst
  have hlead : n.state = .leader := by by_contra hne; exact hst (Or.inl hne)
  have hterm : n.currentTerm = t := by by_contra hne; exact hst (Or.inr hne)
  obtain ⟨hconf, hlast⟩ := hreply hlead hterm
  split
  · obtain ⟨rt, d, he⟩ := n.becomeFollowerLocked_eq r.term
    rw [he]
    exact hold
  split
  · split
    · exact hold
    · rename_i last hl
      have hle := hlast last hl
      rcases n.ackedLocked_next p q (last.index + 1) with h | h
      · rw [h]; exact hold
      · rw [h]; exact Nat.succ_le_succ hle
  · rw [n.handleConflictLocked_eq p r]
    dsimp only
    split
    · rename_i hqp
      rw [hqp] at hold
      exact conflictNext_le hold hconf
    · exact hold

end Node

/-! ## Leaders along a run -/

theorem currentTerm_mono (hw : Cluster.Reachable cfg w) (hr : Cluster.Run cfg w w') (i : NodeID) :
    (w.nodes i).currentTerm ≤ (w'.nodes i).currentTerm := by
  obtain ⟨S, h⟩ := sim_reachable hw
  obtain ⟨S', hrun, h'⟩ := sim_run h hr
  rw [← (h.nodes i).term, ← (h'.nodes i).term]
  exact (Consensus.le_of_steps hrun).term i

/-- A leader's log only grows while it leads the same term. -/
theorem leader_log_mono (hw : Cluster.Reachable cfg w) (hr : Cluster.Run cfg w w') {i : NodeID}
    (hl : (w.nodes i).state = .leader) (hl' : (w'.nodes i).state = .leader)
    (ht : (w.nodes i).currentTerm = (w'.nodes i).currentTerm) :
    (w.nodes i).log.body <+: (w'.nodes i).log.body := by
  obtain ⟨S, h⟩ := sim_reachable hw
  obtain ⟨S', hrun, h'⟩ := sim_run h hr
  obtain ⟨b, hb⟩ := (h.nodes i).reign hl
  obtain ⟨b', hb'⟩ := (h'.nodes i).reign hl'
  obtain ⟨r, hr, _, _, hlog⟩ := (Consensus.le_of_steps hrun).reign _ _ hb
  rw [ht, hb'] at hr
  rw [← Option.some.inj hr] at hlog
  exact hlog

/-- At some moment of a run that leads here, `i` led term `t`. -/
def HasLed (cfg : Config ω) (w : Cluster ω) (i : NodeID) (t : Nat) : Prop :=
  ∃ w₀, Cluster.Reachable cfg w₀ ∧ Cluster.Run cfg w₀ w ∧
    (w₀.nodes i).state = .leader ∧ (w₀.nodes i).currentTerm = t

theorem HasLed.now (hw : Cluster.Reachable cfg w) {i : NodeID} (hl : (w.nodes i).state = .leader) :
    HasLed cfg w i (w.nodes i).currentTerm :=
  ⟨w, hw, Relation.ReflTransGen.refl, hl, rfl⟩

theorem HasLed.step {i : NodeID} {t : Nat} (h : HasLed cfg w i t) (hs : w.act cfg ev = some w') :
    HasLed cfg w' i t := by
  obtain ⟨w₀, hw₀, hr, hl, ht⟩ := h
  exact ⟨w₀, hw₀, hr.tail ⟨ev, hs⟩, hl, ht⟩

/-- The history knows of every reign there was. -/
theorem HasLed.reign {i : NodeID} {t : Nat} (h : HasLed cfg w i t) :
    ∃ S r, Sim cfg w S ∧ S.reign t = some r ∧ r.leader = i := by
  obtain ⟨w₀, hw₀, hr, hl, rfl⟩ := h
  obtain ⟨S₀, h₀⟩ := sim_reachable hw₀
  obtain ⟨S, hrun, hS⟩ := sim_run h₀ hr
  obtain ⟨b, hb⟩ := (h₀.nodes i).reign hl
  obtain ⟨r, hr', hlead, _⟩ := (Consensus.le_of_steps hrun).reign _ _ hb
  exact ⟨S, r, hS, hr', hlead⟩

/-- **No node is elected twice in one term.** Whoever leads a term it has led before leads on. -/
theorem HasLed.before {i : NodeID} {t : Nat} (h : HasLed cfg w i t) (hs : w.act cfg ev = some w')
    (hl' : (w'.nodes i).state = .leader) (ht' : (w'.nodes i).currentTerm = t) :
    (w.nodes i).state = .leader ∧ (w.nodes i).currentTerm = t := by
  obtain ⟨S, r', hS, hr', hlead⟩ := h.reign
  obtain ⟨w₀, hw₀, hr, _, ht₀⟩ := h
  have hw : Cluster.Reachable cfg w := hw₀.trans hr
  have hlow := currentTerm_mono hw₀ hr i
  have hhigh := currentTerm_mono hw (Relation.ReflTransGen.single ⟨ev, hs⟩) i
  have ht : (w.nodes i).currentTerm = t := by omega
  refine ⟨?_, ht⟩
  by_contra hn
  -- it would have to be a candidate of a term that has a leader already, itself
  obtain ⟨k, c, r, _, _, _, he⟩ := enters_leader hs hn hl'
  rw [he] at hl'
  obtain ⟨hcand, _⟩ := Node.handleVoteReply_leader hn hl'
  rw [← ht] at hr'
  exact ((hS.nodes i).camp hcand).2 r' hr' hlead

/-! ## Requests and replies -/

/-- While its sender leads the request's term, what the request ships is in its log. -/
def Backed (w : Cluster ω) (c : AppendCall) : Prop :=
  (w.nodes c.caller).state = .leader → (w.nodes c.caller).currentTerm = c.args.term →
    ∃ L, L <+: (w.nodes c.caller).log.body ∧ Ships L c.args

theorem Backed.step {c : AppendCall} (h : Backed w c) (hw : Cluster.Reachable cfg w)
    (hled : HasLed cfg w c.caller c.args.term) (hs : w.act cfg ev = some w') : Backed w' c := by
  intro hl' ht'
  obtain ⟨hl, ht⟩ := hled.before hs hl' ht'
  obtain ⟨L, hL, hships⟩ := h hl ht
  exact ⟨L, hL.trans (leader_log_mono hw (Relation.ReflTransGen.single ⟨ev, hs⟩) hl hl'
    (ht.trans ht'.symm)), hships⟩

/-- `nextIndex` in range, with what is on its way to move it. -/
structure InRange (cfg : Config ω) (w : Cluster ω) : Prop where
  next : ∀ i, (w.nodes i).state = .leader →
    ∀ p ∈ (w.nodes i).peers, (w.nodes i).nextIndex p ≤ (w.nodes i).log.body.length + 1
  heartbeats : ∀ hb ∈ w.heartbeats, HasLed cfg w hb.caller hb.term
  calls : ∀ c ∈ w.appendCalls, HasLed cfg w c.caller c.args.term ∧ Backed w c
  replies : ∀ cr ∈ w.appendReplies, HasLed cfg w cr.1.caller cr.1.args.term ∧ Backed w cr.1 ∧
    cr.2.conflictIndex ≤ cr.1.args.prevLogIndex

theorem inRange_init : InRange cfg (Cluster.init cfg) where
  next i h := absurd h (by simp [Cluster.init, Node.newNode, Node.start])
  heartbeats hb h := absurd h (by simp [Cluster.init])
  calls c h := absurd h (by simp [Cluster.init])
  replies cr h := absurd h (by simp [Cluster.init])

/-- The last entry of a request is the last of the log it ships. -/
theorem last_index_of_ships (hw : Cluster.Reachable cfg w) {i : NodeID} {L : List LogEntry}
    {args : AppendEntriesArgs} {last : LogEntry} (hL : L <+: (w.nodes i).log.body)
    (hs : Ships L args) (hlast : args.entries.getLast? = some last) :
    last.index ≤ (w.nodes i).log.body.length := by
  rw [hs.entries] at hlast
  have hmem := hL.subset (List.mem_of_mem_drop (List.mem_of_getLast? hlast))
  obtain ⟨k, hk⟩ := List.mem_iff_getElem?.mp hmem
  have hindex := entry_index hw i (k := k + 1) (e := last)
    (by rw [getElem?_entries _ (by omega)]; exact hk)
  have hlt := (List.getElem?_eq_some_iff.mp hk).1
  omega

/-- A node elected in this step has set all of `nextIndex` to the end of its log. -/
theorem next_of_elected (hs : w.act cfg ev = some w') {i : NodeID}
    (hl : (w.nodes i).state ≠ .leader) (hl' : (w'.nodes i).state = .leader) :
    ∀ p ∈ (w'.nodes i).peers,
      (w'.nodes i).nextIndex p ≤ (w'.nodes i).log.body.length + 1 := by
  obtain ⟨k, c, r, _, _, _, hn⟩ := enters_leader hs hl hl'
  rw [hn] at hl' ⊢
  obtain ⟨_, _, _, _, _, hbecome⟩ := Node.handleVoteReply_leader hl hl'
  rw [hbecome]
  intro p hp
  have hset : p ∈ (w.nodes i).peers := hp
  show (if p ∈ (w.nodes i).peers then (w.nodes i).log.lastIndex + 1 else _) ≤ _
  rw [if_pos hset, lastIndex_eq]
  exact Nat.le_refl _

theorem inRange_next (h : InRange cfg w) (hw : Cluster.Reachable cfg w)
    (hs : w.act cfg ev = some w') (i : NodeID) (hl' : (w'.nodes i).state = .leader) :
    ∀ p ∈ (w'.nodes i).peers,
      (w'.nodes i).nextIndex p ≤ (w'.nodes i).log.body.length + 1 := by
  by_cases hl : (w.nodes i).state = .leader
  swap
  · exact next_of_elected hs hl hl'
  have hold := h.next i hl
  have hst := leaderStep_of_act hs hl hl'
  generalize w'.nodes i = n' at hst ⊢
  cases hst with
  | idle hpeers hlog hnext =>
      rw [hpeers, hlog, hnext]
      exact hold
  | reply c r hr hc =>
      subst hc
      obtain ⟨_, hbacked, hconf⟩ := h.replies (c, r) hr
      have hquiet := (w.nodes c.caller).quiet_handleAppendReply c.args.term c.peer c.args.entries r
      rw [hquiet.peers, hquiet.log]
      refine Node.handleAppendReply_next_le hold ?_
      intro hlead hterm
      obtain ⟨L, hL, hships⟩ := hbacked hlead hterm
      have hlen := hL.length_le
      have hprev := hships.prev_le
      dsimp only at hconf hlen hprev
      exact ⟨by omega, fun last hlast => last_index_of_ships hw hL hships hlast⟩
  | append command =>
      obtain ⟨d, he, _⟩ := (w.nodes i).submitCommand_eq hl command
      rw [he]
      intro p hp
      have := hold p hp
      dsimp only
      rw [body_append, List.length_append]
      omega

/-- A step sends no request, or one that it builds for a peer from the log as it stands. -/
theorem act_appendCalls (h : InRange cfg w) (hw : Cluster.Reachable cfg w)
    (hs : w.act cfg ev = some w') : w'.appendCalls = w.appendCalls ∨
      ∃ i p t l cm, w'.appendCalls = w.appendCalls ++ [⟨i, p, (w.nodes i).buildRequest p t l cm⟩] ∧
        w'.nodes = w.nodes ∧ HasLed cfg w i t ∧ p ∈ (w.nodes i).peers := by
  cases acts_of_act hs with
  | readHeartbeat k hb hk =>
      have hmem := List.mem_of_getElem? hk
      obtain ⟨S, hS⟩ := sim_reachable hw
      refine Or.inr ⟨_, _, _, _, _, rfl, rfl, h.heartbeats hb hmem, ?_⟩
      rw [(hS.nodes hb.caller).peers]
      exact (hS.heartbeats hb hmem).peer
  | replicateLog i p _ hp hl => exact Or.inr ⟨_, _, _, _, _, rfl, rfl, HasLed.now hw hl, hp⟩
  | _ => exact Or.inl rfl

/-- Once a leader, a node never has `0` for `nextIndex` again. -/
theorem HasLed.next_pos {i : NodeID} {t : Nat} (h : HasLed cfg w i t) :
    ∀ p ∈ (w.nodes i).peers, 1 ≤ (w.nodes i).nextIndex p := by
  obtain ⟨S, r, hS, hr, hlead⟩ := h.reign
  exact (hS.nodes i).next ⟨t, r, hr, hlead⟩

theorem inRange_step (h : InRange cfg w) (hw : Cluster.Reachable cfg w)
    (hs : w.act cfg ev = some w') : InRange cfg w' := by
  have hcalls : ∀ c ∈ w.appendCalls, HasLed cfg w' c.caller c.args.term ∧ Backed w' c :=
    fun c hc => ⟨(h.calls c hc).1.step hs, (h.calls c hc).2.step hw (h.calls c hc).1 hs⟩
  refine ⟨inRange_next h hw hs, ?_, ?_, ?_⟩
  · intro hb hmem
    rcases mem_heartbeats hs hmem with hmem | ⟨i, p, _, hl, _, rfl⟩
    · exact (h.heartbeats hb hmem).step hs
    · exact (HasLed.now hw hl).step hs
  · intro c hc
    rcases act_appendCalls h hw hs with heq | ⟨i, p, t, l, cm, heq, hnodes, hled, hp⟩
    · rw [heq] at hc; exact hcalls c hc
    rw [heq] at hc
    rcases List.mem_append.mp hc with hc | hc
    · exact hcalls c hc
    rw [List.mem_singleton.mp hc]
    refine ⟨hled.step hs, ?_⟩
    intro hl _
    rw [hnodes] at hl ⊢
    exact ⟨_, List.prefix_rfl, ships_of_next (hled.next_pos p hp) (h.next i hl p hp) _ _ _⟩
  · intro cr hcr
    rcases mem_appendReplies hs hcr with hcr | ⟨c, hc, rfl⟩
    · obtain ⟨hled, hbacked, hconf⟩ := h.replies cr hcr
      exact ⟨hled.step hs, hbacked.step hw hled hs, hconf⟩
    · obtain ⟨hled, hbacked⟩ := hcalls c hc
      exact ⟨hled, hbacked, Node.handleAppendEntries_conflict_le _ _⟩

theorem inRange_reachable (hw : Cluster.Reachable cfg w) : InRange cfg w := by
  refine Execution.Run.invariant (I := InRange cfg) hw inRange_init ?_
  intro w₁ ev w₂ hw₁ h hs
  exact inRange_step h hw₁ hs

/-! ## What a request presupposes -/

/-- An entry inside a log of the cluster has a positive index and a positive term. -/
theorem entry_pos (hw : Cluster.Reachable cfg w) (i : NodeID) {e : LogEntry}
    (he : e ∈ (w.nodes i).log.body) : 1 ≤ e.index ∧ 1 ≤ e.term := by
  obtain ⟨S, hS⟩ := sim_reachable hw
  obtain ⟨k, hk⟩ := List.mem_iff_getElem?.mp he
  have hindex := entry_index hw i (k := k + 1) (e := e)
    (by rw [getElem?_entries _ (by omega)]; exact hk)
  exact ⟨by omega, term_pos_of_held hS.inv (hS.nodes i).held he⟩

/-- A request that ships a log names the term of an entry of it, or starts at the sentinel. -/
theorem prevLogTerm_of_ships (hw : Cluster.Reachable cfg w) {i : NodeID} {args : AppendEntriesArgs}
    (h : Ships (w.nodes i).log.body args) : ∃ e,
      (w.nodes i).log.entries[args.prevLogIndex]? = some e ∧ args.prevLogTerm = e.term ∧
      (args.prevLogTerm = 0 → args.prevLogIndex = 0) := by
  have hterm := h.prev_term
  have hle := h.prev_le
  unfold termIn at hterm
  by_cases h0 : args.prevLogIndex = 0
  · rw [if_pos h0] at hterm
    refine ⟨sentinel, ?_, hterm, fun _ => h0⟩
    rw [h0, entries_eq]
    rfl
  · rw [if_neg h0] at hterm
    have hget := List.getElem?_eq_getElem
      (show args.prevLogIndex - 1 < (w.nodes i).log.body.length by omega)
    rw [hget, Option.map_some, Option.getD_some] at hterm
    refine ⟨_, by rw [getElem?_entries _ (by omega)]; exact hget, hterm, ?_⟩
    intro hzero
    have hpos := (entry_pos hw i (List.mem_of_getElem? hget)).2
    omega

/--
**Leader bookkeeping stays in range.** In every reachable state, for every leader and
every peer, `nextIndex` is at least `1` and at most one past the last index. So in
whatever state a request is sent, by a heartbeat or by replication, `nextIndex - 1` did
not wrap around and the sentinel is not among the entries; and if the sender was still a
leader then, `PrevLogTerm` is the term of the entry at `PrevLogIndex`, and `0` only at
the sentinel.
-/
theorem nextIndex_in_range (hw : Cluster.Reachable cfg w) :
    (∀ i, (w.nodes i).state = .leader → ∀ p ∈ (w.nodes i).peers,
      1 ≤ (w.nodes i).nextIndex p ∧ (w.nodes i).nextIndex p ≤ (w.nodes i).log.lastIndex + 1) ∧
    ∀ ev w' c, w.act cfg ev = some w' → w'.appendCalls = w.appendCalls ++ [c] →
      c.args.prevLogIndex + 1 = (w.nodes c.caller).nextIndex c.peer ∧
      (∀ e ∈ c.args.entries, 1 ≤ e.index) ∧
      ((w.nodes c.caller).state = .leader → ∃ e,
        (w.nodes c.caller).log.entries[c.args.prevLogIndex]? = some e ∧
        c.args.prevLogTerm = e.term ∧ (c.args.prevLogTerm = 0 → c.args.prevLogIndex = 0)) := by
  have h := inRange_reachable hw
  constructor
  · intro i hl p hp
    rw [lastIndex_eq]
    exact ⟨(HasLed.now hw hl).next_pos p hp, h.next i hl p hp⟩
  · intro ev w' c hs hc
    rcases act_appendCalls h hw hs with heq | ⟨i, p, t, l, cm, heq, _, hled, hp⟩
    · rw [heq] at hc
      exact absurd (congrArg List.length hc) (by simp)
    obtain rfl := List.singleton_inj.mp (List.append_cancel_left (hc.symm.trans heq))
    have hpos := hled.next_pos p hp
    refine ⟨?_, ?_, ?_⟩
    · show predIndex ((w.nodes i).nextIndex p) + 1 = _
      rw [predIndex_of_pos hpos]
      dsimp only
      omega
    · intro e he
      have hfrom : e ∈ (w.nodes i).log.entriesFrom ((w.nodes i).nextIndex p) := he
      rw [entriesFrom_eq _ hpos] at hfrom
      exact (entry_pos hw i (List.mem_of_mem_drop hfrom)).1
    · intro hl
      exact prevLogTerm_of_ships hw (ships_of_next hpos (h.next i hl p hp) _ _ _)

/-- Node `b` has replicated its only entry to `c`, and is about to send it to `a`. -/
theorem nextIndex_in_range_abc : ∃ w, Cluster.Reachable volatileABC w ∧
    (w.nodes "b").state = .leader ∧ (w.nodes "b").nextIndex "c" = 2 ∧
    (w.nodes "b").nextIndex "a" ≤ (w.nodes "b").log.lastIndex + 1 := by
  obtain ⟨w, hw, hl, hnext, hpeer⟩ := Cluster.exists_run volatileABC (Cluster.init volatileABC)
    (replicateEvents ++ [.appendReply 0])
    (fun w => (w.nodes "b").state = .leader ∧ (w.nodes "b").nextIndex "c" = 2 ∧
      "a" ∈ (w.nodes "b").peers) (by decide +kernel)
  exact ⟨w, hw, hl, hnext, ((nextIndex_in_range hw).1 "b" hl "a" hpeer).2⟩

end GammaFlow.Raft
