import GammaFlow.Raft.Safety
import GammaFlow.Raft.Writes

/-!
# The log after a restart

A restarted node rebuilds its log from the entry records of its write-ahead log.
There are records for entries that were placed in the log, and none for entries
that were removed from it: when `HandleAppendEntries` truncates a conflicting
suffix, the records of the suffix stay, and a replay puts them in front of what
replaced them.

So the rebuilt log is the log the node had exactly as long as nothing was ever
truncated (`recovered_iff`).
-/

namespace GammaFlow.Raft

open GammaFlow.Storage

variable {rotates : List (List WalRecord) → WalRecord → Bool}

/-- The entry `Replay` makes of a record. -/
def entryOf : WalRecord → Option LogEntry
  | .entry e => some ⟨e.term, e.index, e.command⟩
  | _ => none

/-- A fresh node on the write-ahead log of `n`, after `Replay`. -/
def Node.recover (n : Node (Wal rotates)) : Node (Wal rotates) :=
  let fresh := Node.newNode n.id n.peers n.wal
  match n.wal with
  | none => fresh
  | some d => fresh.replay (Storage.replay d.files)

/-- The entries on record for a node, in the order they were written. -/
def Node.stored (n : Node (Wal rotates)) : List LogEntry := n.records.filterMap entryOf

/-- A replay puts the entries of all files into an empty log. -/
theorem replay_body {ω : Type} (n : Node ω) (hn : n.log.body = []) (files : List (List WalRecord)) :
    (n.replay (Storage.replay files)).log.body = files.flatten.filterMap entryOf := by
  have hentries : (Storage.replay files).entries.map
      (fun e => (⟨e.term, e.index, e.command⟩ : LogEntry)) = files.flatten.filterMap entryOf := by
    rw [replay_entries, List.map_filterMap]
    refine congrArg (fun f => List.filterMap f files.flatten) ?_
    funext r
    cases r <;> rfl
  unfold Node.replay
  dsimp only
  split
  · rw [RaftLog.body_restoreEntries]; exact hentries
  · rename_i hlen
    have hnil : (Storage.replay files).entries = [] := List.length_eq_zero_iff.mp (by omega)
    rw [← hentries, hnil]
    exact hn

/-- **A replay rebuilds the log from all entries on record.** -/
theorem recover_body (n : Node (Wal rotates)) : n.recover.log.body = n.stored := by
  unfold Node.recover Node.stored Node.records
  dsimp only
  cases hw : n.wal with
  | none => rfl
  | some d => exact replay_body _ rfl d.files

/-! ## One section -/

/-- The log keeps its first `m` entries and gains those of `new`, which are also recorded. -/
structure Grows (n n' : Node (Wal rotates)) (m : Nat) (new : List LogEntry) : Prop where
  le : m ≤ n.log.body.length
  log : n'.log.body = n.log.body.take m ++ new
  stored : n'.stored = n.stored ++ new
  durable : n'.wal.isSome
  /-- Entries are dropped only where they differ from what comes in. -/
  truncates : m < n.log.body.length → ¬ n.log.body <+: n'.log.body

theorem stored_of_wal {n n' : Node (Wal rotates)} {rs : List WalRecord} (hd : n.wal.isSome)
    (h : n'.wal = n.wal.map (Journal.appendAll · rs)) :
    n'.wal.isSome ∧ n'.stored = n.stored ++ rs.filterMap entryOf := by
  obtain ⟨hd', hr⟩ := records_of_wal hd h
  refine ⟨hd', ?_⟩
  unfold Node.stored
  rw [hr, List.filterMap_append]

/-- A section that leaves the log alone and records no entry. -/
theorem grows_of_same {n n' : Node (Wal rotates)} {rs : List WalRecord} (hd : n.wal.isSome)
    (hlog : n'.log = n.log) (hwal : n'.wal = n.wal.map (Journal.appendAll · rs))
    (hrs : rs.filterMap entryOf = []) : Grows n n' n.log.body.length [] := by
  obtain ⟨hd', hst⟩ := stored_of_wal hd hwal
  refine ⟨le_rfl, ?_, ?_, hd', fun h => absurd h (lt_irrefl _)⟩
  · rw [hlog, List.take_length, List.append_nil]
  · rw [hst, hrs]

theorem termWrites_entryOf (n : Node (Wal rotates)) (t : Nat) :
    (n.termWrites t).filterMap entryOf = [] := by
  unfold Node.termWrites
  split <;> rfl

theorem map_record_entryOf (es : List LogEntry) : (es.map LogEntry.record).filterMap entryOf = es := by
  induction es with
  | nil => rfl
  | cons e es ih =>
      rw [List.map_cons, List.filterMap_cons]
      show e :: _ = _
      rw [ih]

/-- The append loop keeps a part of the log and adds what it found to be new. -/
theorem body_mergeLog_newEntries (es : List LogEntry) : ∀ (log : RaftLog) (idx : Nat), 1 ≤ idx →
    ∃ m ≤ log.body.length,
      (Node.mergeLog log idx es).body = log.body.take m ++ newEntries log idx es ∧
      (m < log.body.length → ¬ log.body <+: (Node.mergeLog log idx es).body) := by
  induction es with
  | nil =>
      intro log idx _
      refine ⟨log.body.length, le_rfl, ?_, fun h => absurd h (lt_irrefl _)⟩
      rw [Node.mergeLog, newEntries, List.take_length, List.append_nil]
  | cons e es ih =>
      intro log idx hidx
      rw [Node.mergeLog, newEntries]
      by_cases hc : log.contains idx = true
      · have hle := (RaftLog.contains_iff _ _).mp hc
        rw [if_pos hc, if_pos hc]
        by_cases ht : log.termAt idx ≠ e.term
        · rw [if_pos ht, if_pos ht]
          refine ⟨idx - 1, by omega, by rw [RaftLog.body_append, RaftLog.body_truncateAfter], ?_⟩
          intro _ hp
          -- the two logs differ in the term at `idx`
          apply ht
          rw [RaftLog.termAt_eq, termIn_eq_of_le hp hle, RaftLog.body_append,
            RaftLog.body_truncateAfter]
          unfold RaftLog.termIn
          rw [if_neg (by omega), List.getElem?_append_right (by rw [List.length_take]; omega),
            List.length_take]
          have : idx - 1 - min (idx - 1) log.body.length = 0 := by omega
          rw [this]; rfl
        · rw [if_neg ht, if_neg ht]
          exact ih log (idx + 1) (by omega)
      · rw [if_neg hc, if_neg hc]
        refine ⟨log.body.length, le_rfl, ?_, fun h => absurd h (lt_irrefl _)⟩
        rw [RaftLog.body_append, List.take_length]

theorem handleAppendEntries_grows {n : Node (Wal rotates)} (hd : n.wal.isSome)
    (args : AppendEntriesArgs) : ∃ m new, Grows n (n.handleAppendEntries args).1 m new := by
  have hwal := n.handleAppendEntries_wal args
  unfold Node.appendEntriesWrites at hwal
  by_cases hlt : args.term < n.currentTerm
  · rw [if_pos hlt] at hwal
    refine ⟨_, _, grows_of_same hd ?_ hwal rfl⟩
    unfold Node.handleAppendEntries
    rw [if_pos hlt]
  rw [if_neg hlt] at hwal
  obtain ⟨v, vr, rt, d, he⟩ := n.acceptLeader_eq args (by omega)
  have hlog : (n.acceptLeader args).log = n.log := by rw [he]
  have hnode : (n.handleAppendEntries args).1 = ((n.acceptLeader args).checkAndAppend args).1 := by
    unfold Node.handleAppendEntries
    rw [if_neg hlt]
  rcases (n.acceptLeader args).checkAndAppend_cases args with ⟨hno, hn, _⟩ | ⟨hyes, _, _, hn⟩
  · rw [hlog] at hno
    rw [if_neg hno, List.append_nil] at hwal
    refine ⟨_, _, grows_of_same hd ?_ hwal (termWrites_entryOf n _)⟩
    rw [hnode, hn, hlog]
  · rw [hlog] at hyes
    rw [if_pos hyes] at hwal
    have hlog' : (n.handleAppendEntries args).1.log
        = Node.mergeLog n.log (args.prevLogIndex + 1) args.entries := by
      obtain ⟨d', ha⟩ := Node.appendNew_eq args.entries (n.acceptLeader args) (args.prevLogIndex + 1)
      rw [hnode, hn, ha]
      unfold Node.updateCommit
      rw [hlog]
      split <;> rfl
    obtain ⟨hd', hst⟩ := stored_of_wal hd hwal
    obtain ⟨m, hm, hbody, htr⟩ :=
      body_mergeLog_newEntries args.entries n.log (args.prevLogIndex + 1) (by omega)
    refine ⟨m, _, hm, by rw [hlog']; exact hbody, ?_, hd', by rw [hlog']; exact htr⟩
    rw [hst, List.filterMap_append, termWrites_entryOf, map_record_entryOf, List.nil_append]

theorem submitCommand_grows {n : Node (Wal rotates)} (hd : n.wal.isSome) (command : Command) :
    ∃ m new, Grows n (n.submitCommand command).1 m new := by
  have hwal := n.submitCommand_wal command
  unfold Node.submitCommandWrites at hwal
  rcases n.submitCommand_cases command with ⟨hl, he⟩ | ⟨hl, d, he⟩
  · rw [if_pos hl] at hwal
    exact ⟨_, _, grows_of_same hd (by rw [he]) hwal rfl⟩
  · rw [if_neg (by simpa using hl)] at hwal
    obtain ⟨hd', hst⟩ := stored_of_wal hd hwal
    refine ⟨n.log.body.length, _, le_rfl, ?_, hst, hd', fun h => absurd h (lt_irrefl _)⟩
    rw [he, List.take_length, RaftLog.body_append]
    rfl

variable {cfg : Config (Wal rotates)} {w w' : Cluster (Wal rotates)}

/-- **Every step extends a node's records by exactly the entries it adds to the log.** -/
theorem act_grows {ev : Event} (hs : w.act cfg ev = some w') {i : NodeID}
    (hd : (w.nodes i).wal.isSome) : ∃ m new, Grows (w.nodes i) (w'.nodes i) m new := by
  rcases act_nodes hs i with heq | hst
  · rw [heq]
    exact ⟨_, _, grows_of_same hd rfl (Node.map_appendAll_nil _).symm rfl⟩
  · generalize w'.nodes i = n' at hst ⊢
    cases hst with
    | startElection hi =>
        exact ⟨_, _, grows_of_same hd (Node.quiet_startElection _).log (Node.startElection_wal _) rfl⟩
    | requestVote k c hc hp =>
        refine ⟨_, _, grows_of_same hd (Node.quiet_handleRequestVote _ _).log
          (Node.handleRequestVote_wal _ _) ?_⟩
        unfold Node.requestVoteWrites
        rw [List.filterMap_append, termWrites_entryOf]
        split <;> rfl
    | voteReply k c r hc hp =>
        refine ⟨_, _, grows_of_same hd (Node.quiet_handleVoteReply _ _ _ _).log
          (Node.handleVoteReply_wal _ _ _ _) ?_⟩
        unfold Node.voteReplyWrites
        split
        · rfl
        · exact termWrites_entryOf _ _
    | appendEntries k c hc hp => exact handleAppendEntries_grows hd c.args
    | appendReply k c r hc hp =>
        refine ⟨_, _, grows_of_same hd (Node.quiet_handleAppendReply _ _ _ _ _).log
          (Node.handleAppendReply_wal _ _ _ _ _) ?_⟩
        unfold Node.appendReplyWrites
        split
        · rfl
        · exact termWrites_entryOf _ _
    | submitCommand command hi => exact submitCommand_grows hd command
    | finishApply k hk =>
        exact ⟨_, _, grows_of_same hd rfl (Node.map_appendAll_nil _).symm rfl⟩

/-! ## Whole runs -/

/-- The step did not take away or change an entry of the log of `i`. -/
def KeepsLog (i : NodeID) (w : Cluster (Wal rotates)) (_ : Event) (w' : Cluster (Wal rotates)) :
    Prop :=
  (w.nodes i).log.entries <+: (w'.nodes i).log.entries

theorem keepsLog_iff {i : NodeID} {ev : Event} :
    KeepsLog i w ev w' ↔ (w.nodes i).log.body <+: (w'.nodes i).log.body := by
  unfold KeepsLog
  rw [RaftLog.entries_eq, RaftLog.entries_eq, List.cons_prefix_cons]
  exact ⟨fun h => h.2, fun h => ⟨rfl, h⟩⟩

/-- Once more is on record than in the log, it stays that way. -/
theorem exec_surplus {i : NodeID} : ∀ {evs : List Event} {w : Cluster (Wal rotates)},
    (w.nodes i).wal.isSome → w.exec cfg evs = some w' →
    (w.nodes i).log.body.length < (w.nodes i).stored.length →
    (w'.nodes i).log.body.length < (w'.nodes i).stored.length := by
  intro evs
  induction evs with
  | nil => intro w _ hx hlt; rw [← Option.some.inj hx]; exact hlt
  | cons ev evs ih =>
      intro w hd hx hlt
      obtain ⟨w₁, h₁, hx⟩ := Execution.exec_cons.mp hx
      obtain ⟨m, new, hg⟩ := act_grows h₁ hd
      refine ih hg.durable hx ?_
      rw [hg.log, hg.stored, List.length_append, List.length_append, List.length_take]
      have := hg.le
      omega

/-- From a state in which the records are the log, they still are at the end exactly if no step
truncated. -/
theorem exec_stored_iff {i : NodeID} : ∀ {evs : List Event} {w : Cluster (Wal rotates)},
    (w.nodes i).wal.isSome → w.exec cfg evs = some w' →
    (w.nodes i).stored = (w.nodes i).log.body →
    ((w'.nodes i).stored = (w'.nodes i).log.body ↔ Execution.Always (Cluster.act cfg) (KeepsLog i) w evs) := by
  intro evs
  induction evs with
  | nil =>
      intro w _ hx heq
      rw [← Option.some.inj hx]
      exact ⟨fun _ => trivial, fun _ => heq⟩
  | cons ev evs ih =>
      intro w hd hx heq
      obtain ⟨w₁, h₁, hx⟩ := Execution.exec_cons.mp hx
      obtain ⟨m, new, hg⟩ := act_grows h₁ hd
      have hle := hg.le
      rw [Execution.always_cons h₁, keepsLog_iff]
      rcases Nat.lt_or_ge m (w.nodes i).log.body.length with hlt | hge
      · -- a truncation leaves a surplus on record for good
        have hsur : (w₁.nodes i).log.body.length < (w₁.nodes i).stored.length := by
          rw [hg.log, hg.stored, heq, List.length_append, List.length_append, List.length_take]
          omega
        have hend := exec_surplus hg.durable hx hsur
        constructor
        · intro h; rw [h] at hend; exact absurd hend (lt_irrefl _)
        · intro h; exact absurd h.1 (hg.truncates hlt)
      · have htake : (w.nodes i).log.body.take m = (w.nodes i).log.body :=
          List.take_of_length_le hge
        have heq₁ : (w₁.nodes i).stored = (w₁.nodes i).log.body := by
          rw [hg.stored, hg.log, heq, htake]
        rw [ih hg.durable hx heq₁]
        constructor
        · intro h
          refine ⟨?_, h⟩
          rw [hg.log, htake]; exact List.prefix_append _ _
        · exact fun h => h.2

/--
**Recovery of the log.** At the end of a run a replay of the write-ahead log of `i`
rebuilds the log `i` has in memory exactly if no step of the run truncated that log;
and then the entry at each position has that position as its index.
-/
theorem recovered_iff {evs : List Event} {i : NodeID} (hi : cfg.wal i = some Wal.empty)
    (hx : (Cluster.init cfg).exec cfg evs = some w) :
    ((w.nodes i).recover.log = (w.nodes i).log ↔
      Execution.Always (Cluster.act cfg) (KeepsLog i) (Cluster.init cfg) evs) ∧
    (Execution.Always (Cluster.act cfg) (KeepsLog i) (Cluster.init cfg) evs →
      ∀ (k : Nat) (e : LogEntry), (w.nodes i).recover.log.entries[k]? = some e → e.index = k) := by
  have hwal : ((Cluster.init cfg).nodes i).wal = some Wal.empty := hi
  have hiff := exec_stored_iff (i := i) (by rw [hwal]; rfl) hx
    (by unfold Node.stored Node.records; rw [hwal]; rfl)
  rw [← recover_body] at hiff
  have hmain : (w.nodes i).recover.log = (w.nodes i).log ↔
      Execution.Always (Cluster.act cfg) (KeepsLog i) (Cluster.init cfg) evs := by
    rw [← hiff]
    exact ⟨fun h => by rw [h], RaftLog.ext_body⟩
  refine ⟨hmain, ?_⟩
  intro h k e he
  rw [hmain.mpr h] at he
  exact entry_index (Execution.run_of_exec hx) i he

/-- Node `c` holds what `b` sent it, and a replay of its log gives the same. -/
theorem recovered_abc : ∃ w, (Cluster.init durableABC).exec durableABC replicateEvents = some w ∧
    (w.nodes "c").log.body = [⟨1, 1, [1]⟩] ∧ (w.nodes "c").recover.log = (w.nodes "c").log ∧
    Execution.Always (Cluster.act durableABC) (KeepsLog "c") (Cluster.init durableABC) replicateEvents ∧
    ∀ (k : Nat) (e : LogEntry), (w.nodes "c").recover.log.entries[k]? = some e → e.index = k := by
  obtain ⟨w, hx, hlog, hrec⟩ : ∃ w ∈ (Cluster.init durableABC).exec durableABC replicateEvents,
      (w.nodes "c").log.body = [⟨1, 1, [1]⟩] ∧
      (w.nodes "c").recover.log.body = [⟨1, 1, [1]⟩] := by
    decide +kernel
  obtain ⟨hiff, hidx⟩ := recovered_iff (i := "c") rfl hx
  have heq : (w.nodes "c").recover.log = (w.nodes "c").log :=
    RaftLog.ext_body (by rw [hrec, hlog])
  exact ⟨w, hx, hlog, heq, hiff.mp heq, hidx (hiff.mp heq)⟩

/--
The log of `b` after a conflict. Elected in term `1`, `b` appends an entry that no
one else gets; `c`, elected in term `2`, replaces it by another. The replay has both.
-/
theorem recovered_conflict_abc : ∃ w, Cluster.Reachable durableABC w ∧
    (w.nodes "b").log.body = [⟨2, 1, [2]⟩] ∧
    (w.nodes "b").recover.log.body = [⟨1, 1, [1]⟩, ⟨2, 1, [2]⟩] := by
  obtain ⟨w, hw, h⟩ := Cluster.exists_run durableABC (Cluster.init durableABC)
    [.startElection "b", .requestVote 0, .voteReply 0, .submitCommand "b" [1],
      .startElection "c", .startElection "c", .requestVote 4, .voteReply 1,
      .submitCommand "c" [2], .replicateLog "c" "b", .appendEntries 0]
    (fun w => (w.nodes "b").log.body = [⟨2, 1, [2]⟩] ∧
      (w.nodes "b").recover.log.body = [⟨1, 1, [1]⟩, ⟨2, 1, [2]⟩]) (by decide +kernel)
  exact ⟨w, hw, h⟩

end GammaFlow.Raft
