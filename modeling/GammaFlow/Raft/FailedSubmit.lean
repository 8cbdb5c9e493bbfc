import GammaFlow.Storage.Corruption
import GammaFlow.Raft.CommitRule
import GammaFlow.Raft.Recovery

/-!
# What a failed submission leaves behind

`SubmitCommand` appends the entry to the log and then writes it to the write-ahead log.
If the write fails it returns the error, but the entry stays where it is: the next
requests carry it, the leader counts it as its own, and once a majority has it, it is
committed and applied. The client was told that the command had failed.

The next command gets the index after it. The write-ahead log never had the entry before
that one, so the indices on disk have a gap.
-/

namespace GammaFlow.Raft

open GammaFlow.Storage
open RaftLog

variable {ω : Type} [Journal ω]

namespace Node

/-- The entry that a leader makes of a command. -/
def submission (n : Node ω) (command : Command) : LogEntry :=
  ⟨n.currentTerm, n.log.lastIndex + 1, command⟩

/-- **The entry goes into the log; the write only decides what the caller is told.** -/
theorem submitCommand_spec (n : Node ω) (hl : n.state = .leader) (command : Command) :
    n.submitCommand command =
      ({ n with
          log := n.log.append [n.submission command]
          wal := n.wal.map fun d => (Journal.append d (n.submission command).record).1 },
        if (n.wal.map fun d => (Journal.append d (n.submission command).record).2).getD true then
          .appended (n.log.lastIndex + 1) n.currentTerm
        else .errPersist) := by
  unfold submitCommand
  rw [if_neg (by simpa using hl)]
  unfold persist
  cases hw : n.wal with
  | none => rfl
  | some d =>
      show (if (Journal.append d (n.submission command).record).2 then _ else _) = _
      rw [Option.map_some, Option.map_some, Option.getD_some]
      split
      · rfl
      · rfl

theorem leader_of_errPersist {n : Node ω} {command : Command}
    (h : (n.submitCommand command).2 = .errPersist) : n.state = .leader := by
  rcases n.submitCommand_cases command with ⟨_, he⟩ | ⟨hl, _⟩
  · rw [he] at h; exact absurd h (by simp)
  · exact hl

/-- The error is returned just if there is a write-ahead log and the write fails. -/
theorem errPersist_iff {n : Node ω} (hl : n.state = .leader) (command : Command) :
    (n.submitCommand command).2 = .errPersist ↔
      ∃ d, n.wal = some d ∧ (Journal.append d (n.submission command).record).2 = false := by
  rw [n.submitCommand_spec hl command]
  cases n.wal with
  | none => simp
  | some d =>
      dsimp only [Option.map_some, Option.getD_some]
      constructor
      · intro h
        refine ⟨d, rfl, ?_⟩
        by_contra hok
        rw [if_pos ((Bool.not_eq_false _).mp hok)] at h
        exact absurd h (by simp)
      · rintro ⟨d', hd, hfail⟩
        obtain rfl := Option.some.inj hd
        exact if_neg (by rw [hfail]; simp)

end Node

/-! ## Replication and commitment -/

section Leadership

variable {n : Node ω} {command : Command}

/-- **Every request that reaches the end of the log ends with the entry.** -/
theorem sent_after_failure (h : (n.submitCommand command).2 = .errPersist) {p : NodeID}
    (h1 : 1 ≤ n.nextIndex p) (hle : n.nextIndex p ≤ n.log.lastIndex + 1) (t c : Nat) (l : NodeID) :
    (((n.submitCommand command).1).buildRequest p t l c).entries.getLast? =
      some (n.submission command) := by
  rw [n.submitCommand_spec (Node.leader_of_errPersist h) command]
  show ((n.log.append [n.submission command]).entriesFrom (n.nextIndex p)).getLast? = _
  rw [lastIndex_eq] at hle
  rw [entriesFrom_eq _ h1, body_append, List.drop_append_of_le_length (by omega),
    List.getLast?_concat]

/-- **What a majority has is committed**, whether or not the leader has it on disk. -/
theorem committed_after_failure (h : (n.submitCommand command).2 = .errPersist) {m : Node ω}
    (hlog : m.log = (n.submitCommand command).1.log) (hterm : m.currentTerm = n.currentTerm)
    (hmatch : ∀ p ∈ m.peers, m.matchIndex p ≤ m.log.lastIndex)
    (hcommit : m.commitIndex ≤ n.log.lastIndex)
    (hmaj : m.peers.length + 1 < 2 * m.replicas (n.log.lastIndex + 1)) :
    m.advanceCommitIndexLocked = { m with commitIndex := n.log.lastIndex + 1 } := by
  rw [n.submitCommand_spec (Node.leader_of_errPersist h) command] at hlog
  have hlast : m.log.lastIndex = n.log.lastIndex + 1 := by
    rw [hlog, lastIndex_eq, body_append, List.length_append, lastIndex_eq]; rfl
  obtain ⟨c, hmem, hc, he⟩ := m.exists_candidateCommit
  -- the index that is read is the last one
  have hlow := (hc _).mpr hmaj
  have hhigh : c ≤ n.log.lastIndex + 1 := by
    rcases List.mem_cons.mp hmem with rfl | hmem
    · omega
    · obtain ⟨p, hp, rfl⟩ := List.mem_map.mp hmem
      have := hmatch p hp
      omega
  obtain rfl : c = n.log.lastIndex + 1 := by omega
  have hcontains : m.log.contains (n.log.lastIndex + 1) = true := by
    rw [contains_iff, ← lastIndex_eq]; omega
  have hat : m.log.termAt (n.log.lastIndex + 1) = m.currentTerm := by
    rw [hlog, termAt_eq, body_append, termIn, if_neg (by omega), Nat.add_sub_cancel, lastIndex_eq,
      List.getElem?_concat_length, hterm]
    rfl
  rw [he, if_pos ⟨by omega, hcontains, hat⟩]

/-- **What is committed is applied.** -/
theorem applied_after_failure (h : (n.submitCommand command).2 = .errPersist) {m : Node ω}
    (hlog : m.log = (n.submitCommand command).1.log)
    (hcommit : m.commitIndex = n.log.lastIndex + 1) (happlied : m.lastApplied ≤ n.log.lastIndex) :
    ∃ es, m.collectApply = some (es, n.log.lastIndex + 1) ∧ n.submission command ∈ es := by
  have hbody : m.log.body = n.log.body ++ [n.submission command] := by
    rw [hlog, n.submitCommand_spec (Node.leader_of_errPersist h) command]
    exact body_append _ _
  have hlen : m.commitIndex = m.log.body.length := by
    rw [hcommit, hbody, List.length_append, lastIndex_eq]; rfl
  unfold Node.collectApply
  rw [if_neg (by omega), ← hcommit]
  refine ⟨_, rfl, ?_⟩
  rw [entriesBetween_eq _ (by omega) (by omega), hlen, List.take_length, hbody, Nat.add_sub_cancel,
    List.drop_append_of_le_length (by rw [lastIndex_eq] at happlied; exact happlied)]
  exact List.mem_append_right _ (List.mem_singleton_self _)

end Leadership

/-! ## The write-ahead log -/

/-- A log on a disk that leaves nothing of a write that fails, as a full one may. -/
structure FlakyWal where
  records : List WalRecord
  /-- Whether each of the next writes succeeds; later ones do. -/
  outcomes : List Bool
  deriving DecidableEq, Repr

namespace FlakyWal

def append (d : FlakyWal) (r : WalRecord) : FlakyWal × Bool :=
  match d.outcomes with
  | [] => ({ d with records := d.records ++ [r] }, true)
  | true :: rest => ({ records := d.records ++ [r], outcomes := rest }, true)
  | false :: rest => ({ d with outcomes := rest }, false)

instance : Journal FlakyWal where
  append := append

theorem records_append (d : FlakyWal) (r : WalRecord) :
    (d.append r).1.records = d.records ++ if (d.append r).2 then [r] else [] := by
  unfold append
  split
  · rfl
  · rfl
  · exact (List.append_nil _).symm

end FlakyWal

/-- What entries a log has on record: a failed write adds none, any other its own. -/
structure OnRecord (stored : ω → List LogEntry) : Prop where
  failed : ∀ d (e : LogEntry), (Journal.append d e.record).2 = false →
    stored (Journal.append d e.record).1 = stored d
  written : ∀ d (e : LogEntry), (Journal.append d e.record).2 = true →
    stored (Journal.append d e.record).1 = stored d ++ [e]

theorem not_consecutive_of_gap {es : List LogEntry} {last e : LogEntry}
    (hlast : es.getLast? = some last) (hgap : e.index ≠ last.index + 1) :
    ¬ Consecutive ((es ++ [e]).map LogEntry.index) := by
  intro h
  unfold Consecutive at h
  rw [List.map_append, List.isChain_append] at h
  exact hgap (h.2.2 last.index (by rw [List.getLast?_map, hlast]; rfl) e.index rfl)

theorem FlakyWal.onRecord : OnRecord fun d : FlakyWal => d.records.filterMap entryOf where
  failed d e h := by
    show (d.append e.record).1.records.filterMap entryOf = _
    have h' : (d.append e.record).2 = false := h
    rw [records_append, h']
    exact congrArg _ (List.append_nil _)
  written d e h := by
    show (d.append e.record).1.records.filterMap entryOf = _
    have h' : (d.append e.record).2 = true := h
    rw [records_append, h', List.filterMap_append]
    rfl

/-- After a failure, the next submission that succeeds writes the index after the next. -/
theorem gap_after_failure {stored : ω → List LogEntry} (hst : OnRecord stored) {n : Node ω}
    {command : Command} (h : (n.submitCommand command).2 = .errPersist) {d : ω}
    (hd : n.wal = some d) {command₂ : Command} {index term : Nat}
    (h₂ : ((n.submitCommand command).1.submitCommand command₂).2 = .appended index term) :
    ∃ d₂, ((n.submitCommand command).1.submitCommand command₂).1.wal = some d₂ ∧
      stored d₂ = stored d ++ [⟨n.currentTerm, n.log.lastIndex + 2, command₂⟩] := by
  have hl := Node.leader_of_errPersist h
  obtain ⟨d', hd', hfail⟩ := (Node.errPersist_iff hl command).mp h
  obtain rfl := Option.some.inj (hd.symm.trans hd')
  have hl' : (n.submitCommand command).1.state = .leader := by
    rw [n.submitCommand_spec hl command]; exact hl
  have hwal : (n.submitCommand command).1.wal =
      some (Journal.append d (n.submission command).record).1 := by
    rw [n.submitCommand_spec hl command, hd]; rfl
  have hnext : (n.submitCommand command).1.submission command₂ =
      ⟨n.currentTerm, n.log.lastIndex + 2, command₂⟩ := by
    rw [n.submitCommand_spec hl command]
    unfold Node.submission
    dsimp only
    rw [lastIndex_eq, body_append, List.length_append, lastIndex_eq]
    rfl
  generalize (n.submitCommand command).1 = n' at h₂ hl' hwal hnext ⊢
  -- the second write did not fail
  have hok : (Journal.append (Journal.append d (n.submission command).record).1
      (n'.submission command₂).record).2 = true := by
    by_contra hno
    have herr := (Node.errPersist_iff hl' command₂).mpr ⟨_, hwal, (Bool.not_eq_true _).mp hno⟩
    rw [herr] at h₂
    exact absurd h₂ (by simp)
  refine ⟨_, by rw [n'.submitCommand_spec hl' command₂, hwal]; rfl, ?_⟩
  rw [hst.written _ _ hok, hst.failed _ _ hfail, hnext]

/--
**A failed submission leaves its entry behind, every time.** If `SubmitCommand` returns
an error because `PersistEntry` failed, the log is not what it was: it has got the entry
of the command. Every request for a peer whose `nextIndex` is in range carries it; once a
majority has it, the commit rule commits it and the apply loop gets it. And on a disk
that keeps nothing of the failed write and whose last entry was the last of the log, the
indices are no longer consecutive after the next submission that succeeds.
-/
theorem failed_submit_stays {n : Node ω} {command : Command}
    (h : (n.submitCommand command).2 = .errPersist) :
    (n.submitCommand command).1.log ≠ n.log ∧
    (n.submitCommand command).1.log.body = n.log.body ++ [n.submission command] ∧
    (∀ p t l c, 1 ≤ n.nextIndex p → n.nextIndex p ≤ n.log.lastIndex + 1 →
      n.submission command ∈ ((n.submitCommand command).1.buildRequest p t l c).entries) ∧
    (∀ m : Node ω, m.log = (n.submitCommand command).1.log →
      m.currentTerm = n.currentTerm → (∀ p ∈ m.peers, m.matchIndex p ≤ m.log.lastIndex) →
      m.commitIndex ≤ n.log.lastIndex → m.lastApplied ≤ m.commitIndex →
      m.peers.length + 1 < 2 * m.replicas (n.log.lastIndex + 1) →
      ∃ es, m.advanceCommitIndexLocked.collectApply = some (es, n.log.lastIndex + 1) ∧
        n.submission command ∈ es) ∧
    ∀ (stored : ω → List LogEntry) d last command₂ index term, OnRecord stored → n.wal = some d →
      (stored d).getLast? = some last → last.index = n.log.lastIndex →
      ((n.submitCommand command).1.submitCommand command₂).2 = .appended index term →
      ∃ d₂, ((n.submitCommand command).1.submitCommand command₂).1.wal = some d₂ ∧
        ¬ Consecutive ((stored d₂).map LogEntry.index) := by
  have hl := Node.leader_of_errPersist h
  have hbody : (n.submitCommand command).1.log.body = n.log.body ++ [n.submission command] := by
    rw [n.submitCommand_spec hl command]; exact body_append _ _
  refine ⟨?_, hbody, ?_, ?_, ?_⟩
  · intro heq
    rw [heq] at hbody
    exact absurd (congrArg List.length hbody) (by simp)
  · intro p t l c h1 hle
    exact List.mem_of_getLast? (sent_after_failure h h1 hle t c l)
  · intro m hlog hterm hmatch hcommit happlied hmaj
    rw [committed_after_failure h hlog hterm hmatch hcommit hmaj]
    exact applied_after_failure h hlog rfl (by dsimp only; omega)
  · intro stored d last command₂ index term hst hd hlast hindex h₂
    obtain ⟨d₂, hd₂, hrec⟩ := gap_after_failure hst h hd h₂
    refine ⟨d₂, hd₂, ?_⟩
    rw [hrec]
    exact not_consecutive_of_gap hlast (by dsimp only; omega)

/-- The cluster with write-ahead logs whose fourth write fails. -/
def fourthFailsABC : Config FlakyWal := abc (some ⟨[], [true, true, true, false]⟩)

/-- Node `b` is elected in term `1` and accepts one command. -/
def firstCommandEvents : List Event :=
  [.startElection "b", .requestVote 0, .voteReply 0, .submitCommand "b" [1]]

/-- The second command fails, the third does not, and index `2` is missing on disk. -/
theorem failed_submit_stays_abc : ∃ w d₂, Cluster.Reachable fourthFailsABC w ∧
    ((w.nodes "b").submitCommand [2]).2 = .errPersist ∧
    ((w.nodes "b").submitCommand [2]).1.log ≠ (w.nodes "b").log ∧
    (((w.nodes "b").submitCommand [2]).1.submitCommand [3]).1.wal = some d₂ ∧
    ¬ Consecutive ((d₂.records.filterMap entryOf).map LogEntry.index) := by
  obtain ⟨w, hw, hfail, h₂, hindex, d, hd, hlast⟩ := Cluster.exists_run fourthFailsABC
    (Cluster.init fourthFailsABC) firstCommandEvents
    (fun w => ((w.nodes "b").submitCommand [2]).2 = .errPersist ∧
      (((w.nodes "b").submitCommand [2]).1.submitCommand [3]).2 = .appended 3 1 ∧
      (w.nodes "b").log.lastIndex = 1 ∧
      ∃ d ∈ (w.nodes "b").wal, (d.records.filterMap entryOf).getLast? = some ⟨1, 1, [1]⟩)
    (by decide +kernel)
  obtain ⟨hlog, _, _, _, hgap⟩ := failed_submit_stays hfail
  obtain ⟨d₂, hd₂, hnot⟩ := hgap _ d _ _ _ _ FlakyWal.onRecord hd hlast hindex.symm h₂
  exact ⟨w, d₂, hw, hfail, hlog, hd₂, hnot⟩

/--
The client of `b` gets an error for its command `2`. Then `b` replicates the entry to
`c`, commits it and applies it. The next command is accepted, and the write-ahead log of
`b` has the entries of index `1` and `3`.
-/
theorem failed_submit_abc : ∃ w w₁ w₂, Cluster.Reachable fourthFailsABC w ∧
    (w.nodes "b").state = .leader ∧ (w.nodes "b").log.body = [⟨1, 1, [1]⟩] ∧
    ((w.nodes "b").submitCommand [2]).2 = .errPersist ∧
    w.act fourthFailsABC (.submitCommand "b" [2]) = some w₁ ∧
    (w₁.nodes "b").log.body = [⟨1, 1, [1]⟩, ⟨1, 2, [2]⟩] ∧ Cluster.Run fourthFailsABC w₁ w₂ ∧
    (w₂.nodes "c").log.body = [⟨1, 1, [1]⟩, ⟨1, 2, [2]⟩] ∧ (w₂.nodes "b").commitIndex = 2 ∧
    w₂.applyCh "b" = [⟨1, 1, [1]⟩, ⟨1, 2, [2]⟩] ∧
    (w₂.nodes "b").wal.map FlakyWal.records =
      some [.term 1, .vote "b" 1, .entry ⟨1, 1, [1]⟩, .entry ⟨3, 1, [3]⟩] := by
  obtain ⟨w, hw, ⟨hl, hbody, hfail⟩, w₁, hs, hlog, h⟩ :=
    Cluster.exists_run fourthFailsABC (Cluster.init fourthFailsABC) firstCommandEvents
      (fun w => ((w.nodes "b").state = .leader ∧ (w.nodes "b").log.body = [⟨1, 1, [1]⟩] ∧
          ((w.nodes "b").submitCommand [2]).2 = .errPersist) ∧
        ∃ w₁ ∈ w.act fourthFailsABC (.submitCommand "b" [2]),
          (w₁.nodes "b").log.body = [⟨1, 1, [1]⟩, ⟨1, 2, [2]⟩] ∧
          ∃ w₂ ∈ w₁.exec fourthFailsABC [.replicateLog "b" "c", .appendEntries 0, .appendReply 0,
            .collectApply "b", .sendApply "b", .sendApply "b", .submitCommand "b" [3]],
            (w₂.nodes "c").log.body = [⟨1, 1, [1]⟩, ⟨1, 2, [2]⟩] ∧
            (w₂.nodes "b").commitIndex = 2 ∧ w₂.applyCh "b" = [⟨1, 1, [1]⟩, ⟨1, 2, [2]⟩] ∧
            (w₂.nodes "b").wal.map FlakyWal.records =
              some [.term 1, .vote "b" 1, .entry ⟨1, 1, [1]⟩, .entry ⟨3, 1, [3]⟩])
      (by decide +kernel)
  obtain ⟨w₂, hr, h⟩ := Cluster.exists_run _ _ _ _ h
  exact ⟨w, w₁, w₂, hw, hl, hbody, hfail, hs, hlog, hr, h⟩

end GammaFlow.Raft
