import GammaFlow.Raft.NextIndex

/-!
# On whose behalf requests are sent

`replicateLog` reads term, `nextIndex` and log in one section. `sendHeartbeats` captures
the term in one and reads the rest in another, in a goroutine of its own, and does not
look again whether the node still leads. By then the node may have been deposed and its
log overwritten: the request then carries entries of a later term than its own, and
whoever accepts it has them in its log before it has reached their term.

In the runs in which every such goroutine gets to read while its node still leads the
term it captured (`OnDuty`), each request is the end of the log that its sender had as
leader of the request's term, and no node holds an entry from beyond its own term.
-/

namespace GammaFlow.Raft

open GammaFlow.Storage
open RaftLog

variable {ω : Type}

/-- A heartbeat goroutine that reads the log finds its node leading the term it captured. -/
def OnDuty (w : Cluster ω) : Event → Prop
  | .readHeartbeat k => ∀ hb ∈ w.heartbeats[k]?,
      (w.nodes hb.caller).state = .leader ∧ (w.nodes hb.caller).currentTerm = hb.term
  | _ => True

instance (w : Cluster ω) (ev : Event) : Decidable (OnDuty w ev) := by
  cases ev <;> unfold OnDuty <;> infer_instance

variable [Journal ω] {cfg : Config ω} {w w' : Cluster ω} {ev : Event}

/-- At some moment of the run the caller led the request's term, with the log it ships. -/
def Spoken (cfg : Config ω) (evs : List Event) (c : AppendCall) : Prop :=
  ∃ before after w₀, evs = before ++ after ∧ (Cluster.init cfg).exec cfg before = some w₀ ∧
    (w₀.nodes c.caller).state = .leader ∧ (w₀.nodes c.caller).currentTerm = c.args.term ∧
    Ships (w₀.nodes c.caller).log.body c.args

theorem Spoken.snoc {evs : List Event} {c : AppendCall} (h : Spoken cfg evs c) (ev : Event) :
    Spoken cfg (evs ++ [ev]) c := by
  obtain ⟨before, after, w₀, rfl, hx, hl, ht, hs⟩ := h
  exact ⟨before, after ++ [ev], w₀, List.append_assoc _ _ _, hx, hl, ht, hs⟩

/-! ## One node -/

namespace Node

theorem mem_mergeLog {e : LogEntry} : ∀ (es : List LogEntry) {log : RaftLog} {idx : Nat},
    e ∈ (mergeLog log idx es).body → e ∈ log.body ∨ e ∈ es := by
  intro es
  induction es with
  | nil => intro log idx h; exact Or.inl h
  | cons x es ih =>
      intro log idx h
      rw [mergeLog] at h
      split at h
      · split at h
        · rw [body_append, body_truncateAfter] at h
          rcases List.mem_append.mp h with h | h
          · exact Or.inl (List.mem_of_mem_take h)
          · exact Or.inr h
        · rcases ih h with h | h
          · exact Or.inl h
          · exact Or.inr (List.mem_cons_of_mem _ h)
      · rw [body_append] at h
        exact List.mem_append.mp h

/-- A log takes new entries from a current request only. -/
theorem mem_handleAppendEntries {n : Node ω} {args : AppendEntriesArgs} {e : LogEntry}
    (h : e ∈ (n.handleAppendEntries args).1.log.body) :
    e ∈ n.log.body ∨ ((n.handleAppendEntries args).1.currentTerm = args.term ∧ e ∈ args.entries) := by
  by_cases hlt : args.term < n.currentTerm
  · unfold handleAppendEntries at h
    rw [if_pos hlt] at h
    exact Or.inl h
  obtain ⟨v, vr, log, c, rt, d, he⟩ := n.handleAppendEntries_eq args hlt
  have hterm : (n.handleAppendEntries args).1.currentTerm = args.term := by rw [he]
  by_cases hc : consistent n.log args
  · rw [(handleAppendEntries_accepts (by omega) hc).2] at h
    rcases mem_mergeLog _ h with h | h
    · exact Or.inl h
    · exact Or.inr ⟨hterm, h⟩
  · rw [(handleAppendEntries_refuses (by omega) hc).2.1] at h
    exact Or.inl h

end Node

/-! ## Requests -/

/-- No entry of a request is from beyond the request's term. -/
theorem Spoken.entry_term {evs : List Event} {c : AppendCall} (h : Spoken cfg evs c) :
    ∀ e ∈ c.args.entries, e.term ≤ c.args.term := by
  intro e he
  obtain ⟨before, after, w₀, _, hx₀, hl₀, ht₀, hs⟩ := h
  rw [hs.entries] at he
  obtain ⟨k, hk⟩ := List.mem_iff_getElem?.mp (List.mem_of_mem_drop he)
  rw [← ht₀]
  refine leader_entry_term (Execution.run_of_exec hx₀) hl₀ (k := k + 1) ?_
  rw [getElem?_entries _ (by omega)]
  exact hk

/-! ## Runs on duty -/

/-- What holds along a run whose heartbeats are on duty. -/
structure Candid (cfg : Config ω) (evs : List Event) (w : Cluster ω) : Prop where
  calls : ∀ c ∈ w.appendCalls, Spoken cfg evs c
  replies : ∀ cr ∈ w.appendReplies,
    Spoken cfg evs cr.1 ∧ cr.2.conflictIndex ≤ cr.1.args.prevLogIndex
  next : ∀ i, (w.nodes i).state = .leader →
    ∀ p ∈ (w.nodes i).peers, (w.nodes i).nextIndex p ≤ (w.nodes i).log.body.length + 1
  terms : ∀ i, ∀ e ∈ (w.nodes i).log.body, e.term ≤ (w.nodes i).currentTerm

theorem candid_init : Candid cfg [] (Cluster.init cfg) where
  calls c h := absurd h (by simp [Cluster.init])
  replies cr h := absurd h (by simp [Cluster.init])
  next i h := absurd h (by simp [Cluster.init, Node.newNode, Node.start])
  terms i e h := absurd h (by simp [Cluster.init, Node.newNode, Node.start, newRaftLog, body])

theorem candid_terms {evs : List Event} (h : Candid cfg evs w) (hw : Cluster.Reachable cfg w)
    (hs : w.act cfg ev = some w') (i : NodeID) :
    ∀ e ∈ (w'.nodes i).log.body, e.term ≤ (w'.nodes i).currentTerm := by
  have hmono := currentTerm_mono hw (Relation.ReflTransGen.single ⟨ev, hs⟩) i
  have hold : ∀ e ∈ (w.nodes i).log.body, e.term ≤ (w'.nodes i).currentTerm :=
    fun e he => Nat.le_trans (h.terms i e he) hmono
  rcases act_nodes hs i with heq | hst
  · rw [heq] at hold ⊢; exact hold
  generalize w'.nodes i = n' at hst hold ⊢
  cases hst with
  | startElection _ => rw [(Node.quiet_startElection _).log]; exact hold
  | requestVote _ c _ _ => rw [(Node.quiet_handleRequestVote _ _).log]; exact hold
  | voteReply _ c r _ _ => rw [(Node.quiet_handleVoteReply _ _ _ _).log]; exact hold
  | appendEntries _ c hc _ =>
      intro e he
      rcases Node.mem_handleAppendEntries he with he | ⟨hterm, he⟩
      · exact hold e he
      · rw [hterm]
        exact (h.calls c (List.mem_of_getElem? hc)).entry_term e he
  | appendReply _ c r _ _ => rw [(Node.quiet_handleAppendReply _ _ _ _ _).log]; exact hold
  | submitCommand command _ =>
      intro e he
      rcases (w.nodes i).submitCommand_cases command with ⟨_, heq⟩ | ⟨_, d, heq⟩
      · rw [heq] at he ⊢
        exact h.terms i e he
      · rw [heq] at he ⊢
        dsimp only at he
        rw [body_append] at he
        rcases List.mem_append.mp he with he | he
        · exact h.terms i e he
        · rw [List.mem_singleton.mp he]
  | finishApply m _ => exact hold

/-- A request built by a leader, for a peer of its own. -/
theorem spoken_of_leader {evs : List Event} (h : Candid cfg evs w)
    (hx : (Cluster.init cfg).exec cfg evs = some w) {i p : NodeID}
    (hl : (w.nodes i).state = .leader) (hp : p ∈ (w.nodes i).peers) (l : NodeID) (cm : Nat)
    (ev : Event) : Spoken cfg (evs ++ [ev])
      ⟨i, p, (w.nodes i).buildRequest p (w.nodes i).currentTerm l cm⟩ := by
  obtain ⟨S, hS⟩ := sim_reachable (Execution.run_of_exec hx : Cluster.Reachable cfg w)
  obtain ⟨b, hb⟩ := (hS.nodes i).reign hl
  have hnext := (hS.nodes i).next ⟨_, _, hb, rfl⟩ p hp
  exact ⟨evs, [ev], w, rfl, hx, hl, rfl, ships_of_next hnext (h.next i hl p hp) _ _ _⟩

theorem candid_step {evs : List Event} (h : Candid cfg evs w)
    (hx : (Cluster.init cfg).exec cfg evs = some w) (hduty : OnDuty w ev)
    (hs : w.act cfg ev = some w') : Candid cfg (evs ++ [ev]) w' := by
  have hw : Cluster.Reachable cfg w := Execution.run_of_exec hx
  have hcalls : ∀ c ∈ w.appendCalls, Spoken cfg (evs ++ [ev]) c :=
    fun c hc => (h.calls c hc).snoc ev
  have hrange := inRange_reachable (hw.tail ⟨ev, hs⟩)
  refine ⟨?_, ?_, hrange.next, candid_terms h hw hs⟩
  · intro c hc
    rcases mem_appendCalls hs hc with hc | ⟨k, hb, rfl, hk, rfl⟩ | ⟨i, p, _, hl, hp, rfl⟩
    · exact hcalls c hc
    · obtain ⟨hl, ht⟩ := hduty hb hk
      obtain ⟨S, hS⟩ := sim_reachable hw
      have hok := hS.heartbeats hb (List.mem_of_getElem? hk)
      rw [Node.request, ← ht]
      exact spoken_of_leader h hx hl (by rw [(hS.nodes _).peers]; exact hok.peer) _ _ _
    · exact spoken_of_leader h hx hl hp _ _ _
  · intro cr hcr
    rcases mem_appendReplies hs hcr with hcr | ⟨c, hc, rfl⟩
    · exact ⟨(h.replies cr hcr).1.snoc ev, (h.replies cr hcr).2⟩
    · exact ⟨hcalls c hc, Node.handleAppendEntries_conflict_le _ _⟩

/--
**Requests speak for their sender's own leadership.** In a run whose heartbeat goroutines
all read the log while their node still leads the term they captured, every request ever
sent is the end, up to the last index, of the log that its sender had at a moment of the
run at which it led the request's term. No entry in it is of a later term, and no node
has an entry of a term later than its own.
-/
theorem requests_speak_for_leader {evs : List Event}
    (hx : (Cluster.init cfg).exec cfg evs = some w)
    (hduty : Execution.Always (Cluster.act cfg) (fun w ev _ => OnDuty w ev) (Cluster.init cfg) evs) :
    (∀ c ∈ w.appendCalls, Spoken cfg evs c ∧ ∀ e ∈ c.args.entries, e.term ≤ c.args.term) ∧
      ∀ i, ∀ e ∈ (w.nodes i).log.body, e.term ≤ (w.nodes i).currentTerm := by
  have h : Candid cfg evs w := by
    refine Execution.Always.invariant (I := Candid cfg) candid_init ?_ hduty hx
    intro evs w₁ ev w₂ hx h hd hs
    exact candid_step h hx hd hs
  exact ⟨fun c hc => ⟨h.calls c hc, (h.calls c hc).entry_term⟩, h.terms⟩

/-- Node `b` replicates an entry and tells `c` with a heartbeat that it is committed. -/
theorem requests_speak_for_leader_abc : ∃ evs w,
    (Cluster.init volatileABC).exec volatileABC evs = some w ∧ w.appendCalls.length = 2 ∧
    (w.nodes "c").commitIndex = 1 ∧ ∀ c ∈ w.appendCalls, Spoken volatileABC evs c := by
  obtain ⟨w, hx, h⟩ : ∃ w ∈ (Cluster.init volatileABC).exec volatileABC (replicateEvents ++
        [.appendReply 0, .sendHeartbeats "b", .readHeartbeat 1, .appendEntries 1]),
      w.appendCalls.length = 2 ∧ (w.nodes "c").commitIndex = 1 := by
    decide +kernel
  refine ⟨_, w, hx, h.1, h.2, ?_⟩
  exact fun c hc => ((requests_speak_for_leader hx (by decide +kernel)).1 c hc).1

/--
Node `a` leads term `1` and starts a round of heartbeats. Then `b` is elected in term `2`
and brings `a` an entry. Only now does the goroutine for `c` read the log of `a`: the
request is of term `1` with an entry of term `2`, and `c` takes it.
-/
theorem deposed_heartbeat_abc : ∃ w, Cluster.Reachable volatileABC w ∧
    (⟨"a", "c", ⟨1, "a", 0, 0, [⟨2, 1, [7]⟩], 0⟩⟩ : AppendCall) ∈ w.appendCalls ∧
    (w.nodes "c").currentTerm = 1 ∧ (w.nodes "c").log.body = [⟨2, 1, [7]⟩] := by
  obtain ⟨w, hw, h⟩ := Cluster.exists_run volatileABC (Cluster.init volatileABC)
    [.startElection "a", .requestVote 0, .voteReply 0, .sendHeartbeats "a", .startElection "b",
      .requestVote 2, .voteReply 1, .submitCommand "b" [7], .replicateLog "b" "a",
      .appendEntries 0, .readHeartbeat 1, .appendEntries 1]
    (fun w => (⟨"a", "c", ⟨1, "a", 0, 0, [⟨2, 1, [7]⟩], 0⟩⟩ : AppendCall) ∈ w.appendCalls ∧
      (w.nodes "c").currentTerm = 1 ∧ (w.nodes "c").log.body = [⟨2, 1, [7]⟩]) (by decide +kernel)
  exact ⟨w, hw, h⟩

end GammaFlow.Raft
