import GammaFlow.Raft.NextIndex
import GammaFlow.Raft.Senders

/-!
# Where entries come from

Entries are made in one place, the section of `SubmitCommand` on a leader. Everything else
copies them: a request takes them from the log of its sender, and the receiver takes them
from the request (`mem_log_step`, `mem_call_step`). So whatever is true of entries when they
are made is true of all entries in all logs and on their way (`authored_step`).
-/

namespace GammaFlow.Raft

open GammaFlow.Storage

variable {ω : Type} [Journal ω] {cfg : Config ω} {w w' : Cluster ω} {ev : Event}

/-- How an entry may have come into a log. -/
theorem mem_log_step (hs : w.act cfg ev = some w') {i : NodeID} {e : LogEntry}
    (he : e ∈ (w'.nodes i).log.body) : e ∈ (w.nodes i).log.body ∨
      (∃ k c, ev = .appendEntries k ∧ w.appendCalls[k]? = some c ∧ c.peer = i ∧
        e ∈ c.args.entries) ∨
      ∃ command, ev = .submitCommand i command ∧ (w.nodes i).state = .leader ∧
        e = ⟨(w.nodes i).currentTerm, (w.nodes i).log.lastIndex + 1, command⟩ := by
  rcases act_nodes hs i with heq | hst
  · rw [heq] at he; exact Or.inl he
  · generalize w'.nodes i = n' at hst he
    cases hst with
    | startElection _ => rw [(Node.quiet_startElection _).log] at he; exact Or.inl he
    | requestVote _ c _ _ => rw [(Node.quiet_handleRequestVote _ _).log] at he; exact Or.inl he
    | voteReply _ c r _ _ => rw [(Node.quiet_handleVoteReply _ _ _ _).log] at he; exact Or.inl he
    | appendEntries k c hc hp =>
        rcases Node.mem_handleAppendEntries he with he | ⟨_, he⟩
        · exact Or.inl he
        · exact Or.inr (Or.inl ⟨k, c, rfl, hc, hp, he⟩)
    | appendReply _ c r _ _ =>
        rw [(Node.quiet_handleAppendReply _ _ _ _ _).log] at he; exact Or.inl he
    | submitCommand command _ =>
        rcases (w.nodes i).submitCommand_cases command with ⟨_, hn⟩ | ⟨hl, d, hn⟩
        · rw [hn] at he; exact Or.inl he
        · rw [hn, RaftLog.body_append] at he
          rcases List.mem_append.mp he with he | he
          · exact Or.inl he
          · exact Or.inr (Or.inr ⟨command, rfl, hl, List.mem_singleton.mp he⟩)
    | finishApply m _ => exact Or.inl he

/-- A request that was not there before has its entries from the log of its sender. -/
theorem mem_call_step (hw : Cluster.Reachable cfg w) (hs : w.act cfg ev = some w')
    {c : AppendCall} (hc : c ∈ w'.appendCalls) {e : LogEntry} (he : e ∈ c.args.entries) :
    c ∈ w.appendCalls ∨ e ∈ (w.nodes c.caller).log.body := by
  rcases act_appendCalls (inRange_reachable hw) hw hs with heq | ⟨i, p, t, l, cm, heq, _, hled, hp⟩
  · rw [heq] at hc; exact Or.inl hc
  rw [heq] at hc
  rcases List.mem_append.mp hc with hc | hc
  · exact Or.inl hc
  · rw [List.mem_singleton.mp hc] at he ⊢
    have hents : ((w.nodes i).buildRequest p t l cm).entries =
        (w.nodes i).log.body.drop ((w.nodes i).nextIndex p - 1) :=
      RaftLog.entriesFrom_eq _ (hled.next_pos p hp)
    rw [hents] at he
    exact Or.inr (List.mem_of_mem_drop he)

/-- All entries, in logs and on their way, have the property `P`. -/
structure Authored (P : LogEntry → Prop) (w : Cluster ω) : Prop where
  logs : ∀ i, ∀ e ∈ (w.nodes i).log.body, P e
  calls : ∀ c ∈ w.appendCalls, ∀ e ∈ c.args.entries, P e

omit [Journal ω] in
theorem authored_init (P : LogEntry → Prop) : Authored P (Cluster.init cfg) :=
  ⟨fun _ e he => absurd he (by simp [Cluster.init, Node.newNode, Node.start, RaftLog.newRaftLog,
    RaftLog.body]), fun c hc => absurd hc (by simp [Cluster.init])⟩

omit [Journal ω] in
theorem Authored.mono {P Q : LogEntry → Prop} (h : Authored P w) (hPQ : ∀ e, P e → Q e) :
    Authored Q w :=
  ⟨fun i e he => hPQ e (h.logs i e he), fun c hc e he => hPQ e (h.calls c hc e he)⟩

/-- **What is true of entries when they are made is true of all entries.** -/
theorem authored_step {P : LogEntry → Prop} (hw : Cluster.Reachable cfg w) (h : Authored P w)
    (hs : w.act cfg ev = some w')
    (hnew : ∀ i command, ev = .submitCommand i command → (w.nodes i).state = .leader →
      P ⟨(w.nodes i).currentTerm, (w.nodes i).log.lastIndex + 1, command⟩) : Authored P w' where
  logs i e he := by
    rcases mem_log_step hs he with he | ⟨k, c, _, hc, _, he⟩ | ⟨command, hev, hl, rfl⟩
    · exact h.logs i e he
    · exact h.calls c (List.mem_of_getElem? hc) e he
    · exact hnew i command hev hl
  calls c hc e he := by
    rcases mem_call_step hw hs hc he with hc | he
    · exact h.calls c hc e he
    · exact h.logs c.caller e he

theorem node_of_submitCommand {i : NodeID} {command : Command}
    (hs : w.act cfg (.submitCommand i command) = some w') :
    w'.nodes i = ((w.nodes i).submitCommand command).1 := by
  cases acts_of_act hs with
  | submitted _ _ _ _ _ _ => exact setNode_self _ _ _
  | refused _ _ _ => exact setNode_self _ _ _

end GammaFlow.Raft
