import GammaFlow.Raft.History
import GammaFlow.Raft.Provenance
import GammaFlow.Raft.Redirect

/-!
# Partitions

Members that are cut off from the others may go on: one of them may believe to be leader, and
take commands, and replicate them to the others on its side. What it takes stays there, and
as long as its side is no majority, nothing of it is committed or acknowledged
(`minority_commits_nothing`).

Only one kind of message has to be kept from crossing for this: requests of
`AppendEntries` from the one side to the other. Votes, replies and what the others send may
still arrive.
-/

namespace GammaFlow.Raft

open GammaFlow.Storage

variable {ω : Type} [Journal ω] {cfg : Config ω} {w w' : Cluster ω} {ev : Event}
  {A : List NodeID}

/-- The event delivers entries of a member of `A` to someone else. -/
def Escapes (A : List NodeID) (w : Cluster ω) : Event → Prop
  | .appendEntries k => ∃ c ∈ w.appendCalls[k]?, c.caller ∈ A ∧ c.peer ∉ A
  | _ => False

instance (A : List NodeID) (w : Cluster ω) : ∀ ev, Decidable (Escapes A w ev)
  | .appendEntries k => inferInstanceAs (Decidable (∃ c ∈ w.appendCalls[k]?, _))
  | .startElection _ | .requestVote _ | .voteReply _ | .sendHeartbeats _ | .readHeartbeat _
  | .replicateLog _ _ | .appendReply _ | .submitCommand _ _ | .pollSubmit _ | .timeoutSubmit _
  | .collectApply _ | .sendApply _ | .finishApply _ => inferInstanceAs (Decidable False)

/-- The entry is in logs of `A` only, and on its way from there only. -/
structure Confined (A : List NodeID) (e : LogEntry) (w : Cluster ω) : Prop where
  logs : ∀ i, e ∈ (w.nodes i).log.body → i ∈ A
  calls : ∀ c ∈ w.appendCalls, e ∈ c.args.entries → c.caller ∈ A

/-- The entry has been made: someone has had it in their log. -/
def Made (cfg : Config ω) (w : Cluster ω) (e : LogEntry) : Prop :=
  ∃ w₀ i, Cluster.Reachable cfg w₀ ∧ Cluster.Run cfg w₀ w ∧ e ∈ (w₀.nodes i).log.body

theorem has_of_mem (hw : Cluster.Reachable cfg w) {i : NodeID} {e : LogEntry}
    (he : e ∈ (w.nodes i).log.body) : 1 ≤ e.index ∧ (w.nodes i).Has e := by
  obtain ⟨k, hk⟩ := List.mem_iff_getElem?.mp he
  have hentry : (w.nodes i).log.entries[k + 1]? = some e := by
    rw [RaftLog.getElem?_entries _ (by omega)]; exact hk
  have hindex : e.index = k + 1 := entry_index hw i hentry
  unfold Node.Has
  rw [hindex]
  exact ⟨by omega, hentry⟩

theorem Made.index_pos {e : LogEntry} (h : Made cfg w e) : 1 ≤ e.index := by
  obtain ⟨_, _, hw₀, _, he⟩ := h
  exact (has_of_mem hw₀ he).1

/-- No entry is made twice. -/
theorem Made.not_again {e : LogEntry} (h : Made cfg w e) {i : NodeID} {command : Command}
    (hl : (w.nodes i).state = .leader) :
    e ≠ ⟨(w.nodes i).currentTerm, (w.nodes i).log.lastIndex + 1, command⟩ := by
  intro heq
  obtain ⟨w₀, j, hw₀, hr, he⟩ := h
  obtain ⟨hpos, hhas⟩ := has_of_mem hw₀ he
  have hroom := no_second_entry hw₀ hr hpos hhas hl (by rw [heq])
  rw [heq] at hroom
  dsimp only at hroom
  omega

theorem Made.step {e : LogEntry} (h : Made cfg w e) (hs : w.act cfg ev = some w') : Made cfg w' e := by
  obtain ⟨w₀, i, hw₀, hr, he⟩ := h
  exact ⟨w₀, i, hw₀, hr.tail ⟨ev, hs⟩, he⟩

theorem made_of_submit (hw : Cluster.Reachable cfg w) {i : NodeID} {command : Command}
    (hs : w.act cfg (.submitCommand i command) = some w') (hl : (w.nodes i).state = .leader) :
    Made cfg w' ⟨(w.nodes i).currentTerm, (w.nodes i).log.lastIndex + 1, command⟩ := by
  refine ⟨w', i, Relation.ReflTransGen.tail hw ⟨_, hs⟩, Relation.ReflTransGen.refl, ?_⟩
  obtain ⟨d, hn, _⟩ := (w.nodes i).submitCommand_eq hl command
  rw [node_of_submitCommand hs, hn, RaftLog.body_append]
  exact List.mem_append_right _ (List.mem_singleton_self _)

/-- Everything in a log or on its way was made once. -/
theorem made_reachable (hw : Cluster.Reachable cfg w) : Authored (Made cfg w) w := by
  refine Execution.Run.invariant hw (authored_init _) ?_
  intro w₁ ev w₂ hw₁ ih hs
  refine authored_step hw₁ (ih.mono fun e h => h.step hs) hs ?_
  rintro i command rfl hl
  exact made_of_submit hw₁ hs hl

/-- What is confined stays so. -/
theorem confined_step (hw : Cluster.Reachable cfg w) (hs : w.act cfg ev = some w') {e : LogEntry}
    (h : Confined A e w) (hmade : Made cfg w e) (hcut : ¬ Escapes A w ev) : Confined A e w' where
  logs i he := by
    rcases mem_log_step hs he with he | ⟨k, c, rfl, hc, rfl, hsent⟩ | ⟨_, _, hl, heq⟩
    · exact h.logs i he
    · by_contra hpeer
      exact hcut ⟨c, hc, h.calls c (List.mem_of_getElem? hc) hsent, hpeer⟩
    · exact absurd heq (hmade.not_again hl)
  calls c hc he := by
    rcases mem_call_step hw hs hc he with hc | he
    · exact h.calls c hc he
    · exact h.logs c.caller he

/-- A new entry is confined to where it is made. -/
theorem confined_of_submit (hw : Cluster.Reachable cfg w) {i : NodeID} {command : Command}
    (hs : w.act cfg (.submitCommand i command) = some w') (hl : (w.nodes i).state = .leader)
    (hi : i ∈ A) :
    Confined A ⟨(w.nodes i).currentTerm, (w.nodes i).log.lastIndex + 1, command⟩ w' := by
  have honce := made_reachable hw
  refine ⟨?_, ?_⟩
  · intro j he
    rcases mem_log_step hs he with he | ⟨_, _, hev, _⟩ | ⟨_, hev, _, _⟩
    · exact absurd rfl (Made.not_again (honce.logs j _ he) hl)
    · exact absurd hev (by simp)
    · injection hev with hij
      rw [← hij]; exact hi
  · intro c hc he
    rcases mem_call_step hw hs hc he with hc | he
    · exact absurd rfl (Made.not_again (honce.calls c hc _ he) hl)
    · exact absurd rfl (Made.not_again (honce.logs c.caller _ he) hl)

/-- How a call may have been added. -/
theorem submits_step (hs : w.act cfg ev = some w') : w'.submits = w.submits ∨
    ∃ i command, ev = .submitCommand i command ∧ (w.nodes i).state = .leader ∧
      w'.submits = w.submits ++
        [⟨i, command, (w.nodes i).log.lastIndex + 1, (w.nodes i).currentTerm⟩] := by
  cases acts_of_act hs with
  | submitted i command index term _ hres =>
      obtain ⟨hl, rfl, rfl⟩ := Node.submitCommand_appended hres
      exact Or.inr ⟨i, command, rfl, hl, rfl⟩
  | _ => exact Or.inl rfl

/-- What members of `A` take from a state with `n` calls on is made, and confined. -/
def KeepsIn (cfg : Config ω) (A : List NodeID) (n : Nat) (w : Cluster ω) : Prop :=
  ∀ (k : Nat) (c : Submit), n ≤ k → w.submits[k]? = some c → c.node ∈ A →
    Made cfg w c.entry ∧ Confined A c.entry w

theorem keepsIn_step {n : Nat} (hw : Cluster.Reachable cfg w) (h : KeepsIn cfg A n w)
    (hs : w.act cfg ev = some w') (hcut : ¬ Escapes A w ev) : KeepsIn cfg A n w' := by
  intro k c hk hc hnode
  have hold : w.submits[k]? = some c → Made cfg w' c.entry ∧ Confined A c.entry w' := by
    intro hc
    obtain ⟨hmade, hin⟩ := h k c hk hc hnode
    exact ⟨hmade.step hs, confined_step hw hs hin hmade hcut⟩
  rcases submits_step hs with heq | ⟨i, command, rfl, hl, heq⟩
  · rw [heq] at hc; exact hold hc
  · rw [heq, List.getElem?_append] at hc
    split at hc
    · exact hold hc
    · obtain rfl := List.mem_singleton.mp (List.mem_of_getElem? hc)
      exact ⟨made_of_submit hw hs hl, confined_of_submit hw hs hl hnode⟩

omit [Journal ω] in
/-- Those who have what is confined to `A` are in `A`. -/
theorem holders_le (cfg : Config ω) {e : LogEntry} (h : Confined A e w) (he : 1 ≤ e.index) :
    w.holders cfg e ≤ cfg.ids.countP (· ∈ A) := by
  refine List.countP_mono_left ?_
  intro i _ hhas
  have hhas := of_decide_eq_true hhas
  unfold Node.Has at hhas
  rw [RaftLog.getElem?_entries _ he] at hhas
  exact decide_eq_true (h.logs i (List.mem_of_getElem? hhas))

/--
**A minority commits nothing.** Take any run from a reachable state on in which no request of
`AppendEntries` from a member of `A` reaches a node outside, where `A` has at most half of
the members. Whatever command a member of `A` takes in the run is not committed by anyone
when it ends, and no client has been told that it succeeded.
-/
theorem minority_commits_nothing (hw : Cluster.Reachable cfg w)
    (hA : 2 * cfg.ids.countP (· ∈ A) ≤ cfg.ids.length) {evs : List Event}
    (hcut : Execution.Always (Cluster.act cfg) (fun w ev _ => ¬ Escapes A w ev) w evs)
    (hx : w.exec cfg evs = some w') {k : Nat} {c : Submit} (hk : w.submits.length ≤ k)
    (hc : w'.submits[k]? = some c) (hnode : c.node ∈ A) :
    ¬ w'.Committed c.entry ∧ ¬ w'.Acked k c := by
  have hstart : KeepsIn cfg A w.submits.length w := by
    intro k c hk hc _
    exact absurd (List.getElem?_eq_some_iff.mp hc).1 (Nat.not_lt.mpr hk)
  have hin : KeepsIn cfg A w.submits.length w' := by
    refine Execution.Always.invariant (I := fun _ => KeepsIn cfg A w.submits.length) hstart ?_
      hcut hx
    intro done w₁ ev w₂ hdone hin hcut hs
    exact keepsIn_step (hw.trans (Execution.run_of_exec hdone)) hin hs hcut
  have hw' : Cluster.Reachable cfg w' := hw.trans (Execution.run_of_exec hx)
  obtain ⟨hmade, hconf⟩ := hin k c hk hc hnode
  have hpos : 1 ≤ c.entry.index := hmade.index_pos
  have hnot : ¬ w'.Committed c.entry := by
    intro hcommitted
    have hmajority := holders_of_committed hw' hpos hcommitted
    have hfew := holders_le cfg hconf hpos
    omega
  refine ⟨hnot, ?_⟩
  intro hacked
  obtain ⟨_, hcommit, _, hholds⟩ := hacked.committed hw'
  exact hnot ⟨c.node, hcommit, hholds c.node hcommit⟩

/-- Node `b` is elected with the votes of both others. -/
def unanimousEvents : List Event :=
  [.startElection "b", .requestVote 0, .requestVote 1, .voteReply 0, .voteReply 1]

/--
From then on `b` is cut off. It takes two commands and sends them, while `c` is elected by `a`,
and commits and acknowledges a third one.
-/
def cutOffEvents : List Event :=
  [.submitCommand "b" [1], .replicateLog "b" "a", .submitCommand "b" [2], .replicateLog "b" "c",
    .startElection "c", .requestVote 2, .voteReply 2, .submitCommand "c" [3],
    .replicateLog "c" "a", .appendEntries 2, .appendReply 0, .collectApply "c", .sendApply "c",
    .finishApply "c", .pollSubmit 2, .pollSubmit 0, .pollSubmit 1]

theorem minority_commits_nothing_abc : ∃ w w', Cluster.Reachable volatileABC w ∧
    w.exec volatileABC cutOffEvents = some w' ∧
    w'.submits = [⟨"b", [1], 1, 1⟩, ⟨"b", [2], 2, 1⟩, ⟨"c", [3], 1, 2⟩] ∧
    (2, .success) ∈ w'.returned ∧ ¬ w'.Committed ⟨1, 2, [2]⟩ ∧ ¬ w'.Acked 1 ⟨"b", [2], 2, 1⟩ := by
  obtain ⟨w, hw, w', hx, hnone, hsubmits, hreturned, hcut⟩ :=
    Cluster.exists_run volatileABC (Cluster.init volatileABC) unanimousEvents
      (fun w => ∃ w' ∈ w.exec volatileABC cutOffEvents, w.submits = [] ∧
        w'.submits = [⟨"b", [1], 1, 1⟩, ⟨"b", [2], 2, 1⟩, ⟨"c", [3], 1, 2⟩] ∧
        (2, .success) ∈ w'.returned ∧
        Execution.Always (Cluster.act volatileABC) (fun w ev _ => ¬ Escapes ["b"] w ev) w
          cutOffEvents) (by decide +kernel)
  obtain ⟨hnot, hunacked⟩ := minority_commits_nothing hw (A := ["b"]) (by decide) hcut hx
    (k := 1) (c := ⟨"b", [2], 2, 1⟩) (by rw [hnone]; exact Nat.zero_le _)
    (by rw [hsubmits]; rfl) (List.mem_singleton_self _)
  exact ⟨w, w', hw, hx, hsubmits, hreturned, hnot, hunacked⟩

end GammaFlow.Raft
