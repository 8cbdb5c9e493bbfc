import GammaFlow.Raft.Node

/-!
# What each section does to the protocol state

One equation a section: the node it leaves behind, with the new timers, contexts
and write-ahead log left open. Nothing about votes, terms or logs depends on
those, so the proofs above never look into a section again.
-/

namespace GammaFlow.Raft

open GammaFlow.Storage

namespace Node

variable {ω : Type} [Journal ω]

omit [Journal ω] in
theorem replay_eq (n : Node ω) (r : Replayed) : ∃ log, n.replay r = { n with
    currentTerm := r.term, votedFor := r.votedFor, log := log } := by
  unfold replay
  dsimp only
  split
  · exact ⟨_, rfl⟩
  · exact ⟨n.log, rfl⟩

theorem persist_eq (n : Node ω) (r : WalRecord) :
    ∃ w, (n.persist r).1 = { n with wal := w } := by
  unfold persist
  split
  · exact ⟨n.wal, rfl⟩
  · exact ⟨_, rfl⟩

theorem persistEntries_eq (es : List LogEntry) : ∀ n : Node ω,
    ∃ w, n.persistEntries es = { n with wal := w } := by
  induction es with
  | nil => intro n; exact ⟨n.wal, rfl⟩
  | cons e es ih =>
      intro n
      obtain ⟨w₁, h₁⟩ := n.persist_eq (.entry ⟨e.index, e.term, e.command⟩)
      obtain ⟨w₂, h₂⟩ := ih { n with wal := w₁ }
      refine ⟨w₂, ?_⟩
      unfold persistEntries at h₂ ⊢
      rw [List.foldl_cons, h₁, h₂]

theorem startElection_eq (n : Node ω) : ∃ rt w,
    n.startElection.1 = { n with
      currentTerm := n.currentTerm + 1
      state := .candidate
      votedFor := n.id
      leaderID := ""
      votes := 1
      votesReceived := [n.id]
      wal := w
      rt := rt } ∧
    n.startElection.2 = ⟨n.currentTerm + 1, n.id, n.log.lastIndex, n.log.lastTerm⟩ := by
  let n₀ : Node ω := { n with
    currentTerm := n.currentTerm + 1
    state := .candidate
    votedFor := n.id
    leaderID := ""
    votes := 1
    votesReceived := [n.id] }
  obtain ⟨w₁, h₁⟩ := n₀.persist_eq (.term n₀.currentTerm)
  obtain ⟨w₂, h₂⟩ := ({ n₀ with wal := w₁ } : Node ω).persist_eq (.vote n₀.votedFor n₀.currentTerm)
  have key : n.startElection = ({ n₀ with wal := w₂, rt := n₀.rt.resetElectionTimerLocked },
      ⟨n₀.currentTerm, n₀.id, n₀.log.lastIndex, n₀.log.lastTerm⟩) := by
    unfold startElection
    dsimp only [n₀] at h₁ h₂ ⊢
    rw [h₁]
    dsimp only
    rw [h₂]
  rw [key]
  exact ⟨_, w₂, rfl, rfl⟩

theorem becomeFollowerLocked_eq (n : Node ω) (term : Nat) : ∃ rt w,
    n.becomeFollowerLocked term = { n with
      currentTerm := if term > n.currentTerm then term else n.currentTerm
      votedFor := if term > n.currentTerm then "" else n.votedFor
      state := .follower
      votes := 0
      votesReceived := []
      wal := w
      rt := rt } := by
  unfold becomeFollowerLocked
  by_cases ht : term > n.currentTerm
  · obtain ⟨w, hw⟩ :=
      ({ n with currentTerm := term, votedFor := "" } : Node ω).persist_eq (.term term)
    simp only [if_pos ht, hw]
    split
    · exact ⟨_, w, rfl⟩
    · exact ⟨_, w, rfl⟩
  · simp only [if_neg ht]
    split
    · exact ⟨_, n.wal, rfl⟩
    · exact ⟨_, n.wal, rfl⟩

@[simp] theorem becomeFollowerLocked_state (n : Node ω) (term : Nat) :
    (n.becomeFollowerLocked term).state = .follower := by
  obtain ⟨rt, w, he⟩ := n.becomeFollowerLocked_eq term
  rw [he]

/-- Seeing a term: later ones make a follower of the node, others leave it alone. -/
def seeTerm (n : Node ω) (term : Nat) : Node ω :=
  if term > n.currentTerm then n.becomeFollowerLocked term else n

theorem seeTerm_term_le (n : Node ω) (term : Nat) : term ≤ (n.seeTerm term).currentTerm := by
  unfold seeTerm
  split
  · rename_i h
    obtain ⟨rt, w, he⟩ := n.becomeFollowerLocked_eq term
    rw [he]; dsimp only; rw [if_pos h]
  · omega

/-- A vote is granted exactly when the request is current, no other vote is in the way and
the candidate's log is up to date. -/
def grants (n : Node ω) (args : RequestVoteArgs) : Prop :=
  args.term = n.currentTerm ∧ (n.votedFor = "" ∨ n.votedFor = args.candidateID) ∧
    n.isLogUpToDate args.lastLogTerm args.lastLogIndex = true

theorem handleRequestVote_cases (n : Node ω) (args : RequestVoteArgs) :
    (¬ (n.seeTerm args.term).grants args ∧
      (n.handleRequestVote args).1 = n.seeTerm args.term ∧
      (n.handleRequestVote args).2.voteGranted = false) ∨
    ((n.seeTerm args.term).grants args ∧
      (n.handleRequestVote args).2.voteGranted = true ∧
      (∃ rt w, (n.handleRequestVote args).1 = { n.seeTerm args.term with
        votedFor := args.candidateID, wal := w, rt := rt }) ∧
      (n.handleRequestVote args).1 = ({ n.seeTerm args.term with
        votedFor := args.candidateID
        rt := (n.seeTerm args.term).rt.resetElectionTimerLocked }.persist
          (.vote args.candidateID args.term)).1) := by
  have hle := n.seeTerm_term_le args.term
  unfold handleRequestVote
  dsimp only
  rw [show (if args.term > n.currentTerm then n.becomeFollowerLocked args.term else n)
    = n.seeTerm args.term from rfl]
  generalize n.seeTerm args.term = m at hle ⊢
  by_cases hlt : args.term < m.currentTerm
  · left
    rw [if_pos hlt]
    refine ⟨?_, rfl, ?_⟩
    · intro hg; have := hg.1; omega
    · split <;> rfl
  · rw [if_neg hlt]
    unfold castVote
    dsimp only
    by_cases hg : (m.votedFor = "" ∨ m.votedFor = args.candidateID) ∧
        m.isLogUpToDate args.lastLogTerm args.lastLogIndex = true
    · right
      have hterm : args.term = m.currentTerm := by omega
      obtain ⟨w, hw⟩ := ({ m with
        votedFor := args.candidateID, rt := m.rt.resetElectionTimerLocked } : Node ω).persist_eq
          (.vote args.candidateID m.currentTerm)
      rw [if_pos hg]
      refine ⟨⟨hterm, hg⟩, rfl, ⟨_, w, hw⟩, by rw [hterm]⟩
    · left
      rw [if_neg hg]
      refine ⟨fun h => hg h.2, rfl, ?_⟩
      split <;> rfl

/-- Either way the node sees the term, and at most its vote, log and timers change. -/
theorem handleRequestVote_eq (n : Node ω) (args : RequestVoteArgs) : ∃ v rt w,
    (n.handleRequestVote args).1 =
      { n.seeTerm args.term with votedFor := v, wal := w, rt := rt } := by
  rcases n.handleRequestVote_cases args with ⟨_, he, _⟩ | ⟨_, _, ⟨rt, w, he⟩, _⟩
  · exact ⟨_, _, _, he⟩
  · exact ⟨_, rt, w, he⟩

/-! ## Appending -/

/-- What the append loop makes of a log. -/
def mergeLog (log : RaftLog) (idx : Nat) : List LogEntry → RaftLog
  | [] => log
  | entry :: rest =>
      if log.contains idx then
        if log.termAt idx ≠ entry.term then (log.truncateAfter (idx - 1)).append (entry :: rest)
        else mergeLog log (idx + 1) rest
      else log.append (entry :: rest)

theorem appendNew_eq (es : List LogEntry) : ∀ (n : Node ω) (idx : Nat),
    ∃ w, n.appendNew idx es = { n with log := mergeLog n.log idx es, wal := w } := by
  induction es with
  | nil => intro n idx; exact ⟨n.wal, rfl⟩
  | cons e es ih =>
      intro n idx
      rw [appendNew, mergeLog]
      split
      · split
        · exact persistEntries_eq _ _
        · exact ih n (idx + 1)
      · exact persistEntries_eq _ _

theorem acceptLeader_eq (n : Node ω) (args : AppendEntriesArgs) (h : n.currentTerm ≤ args.term) :
    ∃ v vr rt w, n.acceptLeader args = { n with
      currentTerm := args.term
      votedFor := if args.term > n.currentTerm then "" else n.votedFor
      state := .follower
      votes := v
      votesReceived := vr
      leaderID := args.leaderID
      wal := w
      rt := rt } := by
  unfold acceptLeader
  by_cases ht : args.term > n.currentTerm
  · obtain ⟨rt, w, he⟩ := n.becomeFollowerLocked_eq args.term
    simp only [if_pos ht, he, ne_eq, not_true_eq_false, if_false]
    exact ⟨0, [], _, w, rfl⟩
  · have heq : n.currentTerm = args.term := by omega
    simp only [if_neg ht]
    split
    · exact ⟨n.votes, n.votesReceived, _, n.wal, by rw [← heq]⟩
    · rename_i hs
      have hs' : n.state = .follower := by simpa using hs
      exact ⟨n.votes, n.votesReceived, _, n.wal, by rw [← heq, ← hs']⟩

/-- A candidate or leader of the sender's own term gives way to it; any other node takes the
term it sees. -/
theorem acceptLeader_cases (n : Node ω) (args : AppendEntriesArgs) :
    n.acceptLeader args = { n with
      state := .follower
      leaderID := args.leaderID
      rt := n.rt.stopLeading.resetElectionTimerLocked } ∨
    n.acceptLeader args = { n.seeTerm args.term with
      leaderID := args.leaderID
      rt := (n.seeTerm args.term).rt.resetElectionTimerLocked } := by
  unfold acceptLeader seeTerm
  by_cases ht : args.term > n.currentTerm
  · -- `becomeFollowerLocked` has made a follower of it already
    right
    simp only [if_pos ht, becomeFollowerLocked_state, ne_eq, not_true_eq_false, if_false]
  · simp only [if_neg ht]
    split
    · exact Or.inl rfl
    · exact Or.inr rfl

/-- The consistency check of `HandleAppendEntries`. -/
def consistent (log : RaftLog) (args : AppendEntriesArgs) : Prop :=
  args.prevLogIndex = 0 ∨
    (args.prevLogIndex ≤ log.body.length ∧ log.termAt args.prevLogIndex = args.prevLogTerm)

theorem checkAndAppend_cases (n : Node ω) (args : AppendEntriesArgs) :
    (¬ consistent n.log args ∧ (n.checkAndAppend args).1 = n ∧
      (n.checkAndAppend args).2.success = false ∧
      ((n.checkAndAppend args).2.conflictTerm > 0 → 1 ≤ (n.checkAndAppend args).2.conflictIndex)) ∨
    (consistent n.log args ∧ (n.checkAndAppend args).2.success = true ∧
      (n.checkAndAppend args).2.conflictTerm = 0 ∧
      (n.checkAndAppend args).1 =
        (n.appendNew (args.prevLogIndex + 1) args.entries).updateCommit args.leaderCommit) := by
  unfold checkAndAppend
  dsimp only
  by_cases h₁ : args.prevLogIndex > 0 ∧ ¬ n.log.contains args.prevLogIndex = true
  · left
    rw [if_pos h₁]
    refine ⟨?_, rfl, rfl, fun h => absurd h (lt_irrefl 0)⟩
    rintro (h | ⟨h, _⟩)
    · omega
    · exact h₁.2 ((RaftLog.contains_iff _ _).mpr h)
  · rw [if_neg h₁]
    have hin : args.prevLogIndex ≤ n.log.body.length := by
      rcases Nat.eq_zero_or_pos args.prevLogIndex with h0 | hpos
      · omega
      · by_contra hlt
        exact h₁ ⟨hpos, fun hc => hlt ((RaftLog.contains_iff _ _).mp hc)⟩
    by_cases h₂ : args.prevLogIndex > 0 ∧ n.log.termAt args.prevLogIndex ≠ args.prevLogTerm
    · left
      rw [if_pos h₂]
      refine ⟨?_, rfl, rfl, ?_⟩
      · rintro (h | ⟨_, h⟩)
        · omega
        · exact h₂.2 h
      · -- the conflicting term is found at the latest where it was read
        intro hpos
        obtain ⟨P, e, hP, _, _, _, ht⟩ := exists_at (by omega) hin
        refine RaftLog.findFirstFrom_pos le_rfl (e := e) ?_ ?_
        · rw [RaftLog.entries_eq, List.drop_succ_cons, List.drop_zero]
          exact hP.subset (by simp)
        · rw [RaftLog.termAt_eq]; exact ht.symm
    · right
      rw [if_neg h₂]
      refine ⟨?_, rfl, rfl, rfl⟩
      rcases Nat.eq_zero_or_pos args.prevLogIndex with h0 | hpos
      · exact Or.inl h0
      · right
        refine ⟨hin, ?_⟩
        by_contra hne
        exact h₂ ⟨hpos, hne⟩

theorem checkAndAppend_eq (n : Node ω) (args : AppendEntriesArgs) : ∃ log c w,
    (n.checkAndAppend args).1 = { n with log := log, commitIndex := c, wal := w } := by
  rcases n.checkAndAppend_cases args with ⟨_, he, _⟩ | ⟨_, _, _, he⟩
  · exact ⟨n.log, n.commitIndex, n.wal, he⟩
  · obtain ⟨w, hw⟩ := appendNew_eq args.entries n (args.prevLogIndex + 1)
    rw [he, hw]
    unfold updateCommit
    split
    · exact ⟨_, _, w, rfl⟩
    · exact ⟨_, n.commitIndex, w, rfl⟩

/-- Whatever becomes of the log, the receiver of a current request follows its sender. -/
theorem handleAppendEntries_eq (n : Node ω) (args : AppendEntriesArgs)
    (h : ¬ args.term < n.currentTerm) : ∃ v vr log c rt w, (n.handleAppendEntries args).1 = { n with
      currentTerm := args.term
      votedFor := if args.term > n.currentTerm then "" else n.votedFor
      state := .follower
      votes := v
      votesReceived := vr
      leaderID := args.leaderID
      log := log
      commitIndex := c
      wal := w
      rt := rt } := by
  obtain ⟨v, vr, rt, w₁, h₁⟩ := n.acceptLeader_eq args (by omega)
  obtain ⟨log, c, w₂, h₂⟩ := (n.acceptLeader args).checkAndAppend_eq args
  unfold handleAppendEntries
  rw [if_neg h, h₂, h₁]
  exact ⟨v, vr, log, c, rt, w₂, rfl⟩

/-- The receiver of a current request, whatever becomes of its log. -/
def followed (n : Node ω) (args : AppendEntriesArgs) (votes : Nat) (votesReceived : List NodeID)
    (rt : Runtime) (wal : Option ω) : Node ω :=
  { n with
    currentTerm := args.term
    votedFor := if args.term > n.currentTerm then "" else n.votedFor
    state := .follower
    votes := votes
    votesReceived := votesReceived
    leaderID := args.leaderID
    wal := wal
    rt := rt }

/-- The commit index of a follower with `last` entries that is told of the leader's. -/
def toldCommit (commitIndex leaderCommit last : Nat) : Nat :=
  if leaderCommit > commitIndex then min leaderCommit last else commitIndex

/-- The answer to a request that fails the consistency check. -/
def conflictHint (log : RaftLog) (args : AppendEntriesArgs) : AppendEntriesReply :=
  if log.body.length < args.prevLogIndex then ⟨args.term, false, 0, log.body.length + 1⟩
  else ⟨args.term, false, log.termAt args.prevLogIndex,
    log.findFirstIndexOfTerm (log.termAt args.prevLogIndex)⟩

/-- The ways `HandleAppendEntries` can end. -/
inductive AppendHandled (n : Node ω) (args : AppendEntriesArgs) :
    Node ω → AppendEntriesReply → Prop
  | stale : args.term < n.currentTerm → AppendHandled n args n ⟨n.currentTerm, false, 0, 0⟩
  | refused (votes : Nat) (votesReceived : List NodeID) (rt : Runtime) (wal : Option ω) :
      n.currentTerm ≤ args.term → ¬ consistent n.log args →
      AppendHandled n args (n.followed args votes votesReceived rt wal) (conflictHint n.log args)
  | accepted (votes : Nat) (votesReceived : List NodeID) (rt : Runtime) (wal : Option ω) :
      n.currentTerm ≤ args.term → consistent n.log args →
      AppendHandled n args { n.followed args votes votesReceived rt wal with
        log := mergeLog n.log (args.prevLogIndex + 1) args.entries
        commitIndex := toldCommit n.commitIndex args.leaderCommit
          (mergeLog n.log (args.prevLogIndex + 1) args.entries).lastIndex }
        ⟨args.term, true, 0, 0⟩

omit [Journal ω] in
theorem updateCommit_toldCommit (n : Node ω) (c : Nat) :
    n.updateCommit c = { n with commitIndex := toldCommit n.commitIndex c n.log.lastIndex } := by
  unfold updateCommit toldCommit
  split
  · congr 1
    split
    · exact (Nat.min_eq_right (by omega)).symm
    · exact (Nat.min_eq_left (by omega)).symm
  · rfl

/-- **What `HandleAppendEntries` can do.** -/
theorem appendHandled (n : Node ω) (args : AppendEntriesArgs) :
    AppendHandled n args (n.handleAppendEntries args).1 (n.handleAppendEntries args).2 := by
  unfold handleAppendEntries
  by_cases hlt : args.term < n.currentTerm
  · rw [if_pos hlt]; exact .stale hlt
  rw [if_neg hlt]
  have ht : n.currentTerm ≤ args.term := Nat.le_of_not_lt hlt
  obtain ⟨v, vr, rt, w, he⟩ := n.acceptLeader_eq args ht
  have hm : n.acceptLeader args = n.followed args v vr rt w := he
  have hlog : (n.followed args v vr rt w).log = n.log := rfl
  have hterm : (n.followed args v vr rt w).currentTerm = args.term := rfl
  rw [hm]
  unfold checkAndAppend
  dsimp only
  rw [hlog, hterm]
  by_cases hshort : args.prevLogIndex > 0 ∧ ¬ n.log.contains args.prevLogIndex = true
  · rw [if_pos hshort]
    have hlen : n.log.body.length < args.prevLogIndex := by
      have := hshort.2
      rw [RaftLog.contains_iff] at this
      omega
    have hno : ¬ consistent n.log args := by
      rintro (h | ⟨h, _⟩) <;> omega
    have hhint : conflictHint n.log args = ⟨args.term, false, 0, n.log.lastIndex + 1⟩ := by
      rw [conflictHint, if_pos hlen, RaftLog.lastIndex_eq]
    rw [← hhint]
    exact .refused v vr rt w ht hno
  rw [if_neg hshort]
  have hin : args.prevLogIndex ≤ n.log.body.length := by
    rcases Nat.eq_zero_or_pos args.prevLogIndex with h0 | hpos
    · omega
    · by_contra hlt
      exact hshort ⟨hpos, fun hc => hlt ((RaftLog.contains_iff _ _).mp hc)⟩
  by_cases hconf : args.prevLogIndex > 0 ∧ n.log.termAt args.prevLogIndex ≠ args.prevLogTerm
  · rw [if_pos hconf]
    have hno : ¬ consistent n.log args := by
      rintro (h | ⟨_, h⟩)
      · omega
      · exact hconf.2 h
    have hhint : conflictHint n.log args = ⟨args.term, false, n.log.termAt args.prevLogIndex,
        n.log.findFirstIndexOfTerm (n.log.termAt args.prevLogIndex)⟩ := by
      rw [conflictHint, if_neg (by omega)]
    rw [← hhint]
    exact .refused v vr rt w ht hno
  · rw [if_neg hconf]
    have hyes : consistent n.log args := by
      rcases Nat.eq_zero_or_pos args.prevLogIndex with h0 | hpos
      · exact Or.inl h0
      · refine Or.inr ⟨hin, ?_⟩
        by_contra hne
        exact hconf ⟨hpos, hne⟩
    obtain ⟨w', ha⟩ := appendNew_eq args.entries (n.followed args v vr rt w) (args.prevLogIndex + 1)
    rw [ha, updateCommit_toldCommit]
    exact .accepted v vr rt w' ht hyes

/-- A current request that passes the check is merged into the log. -/
theorem handleAppendEntries_accepts {n : Node ω} {args : AppendEntriesArgs}
    (ht : n.currentTerm ≤ args.term) (hc : consistent n.log args) :
    (n.handleAppendEntries args).2 = ⟨args.term, true, 0, 0⟩ ∧
      (n.handleAppendEntries args).1.log =
        mergeLog n.log (args.prevLogIndex + 1) args.entries := by
  have h := n.appendHandled args
  generalize (n.handleAppendEntries args).1 = n' at h ⊢
  generalize (n.handleAppendEntries args).2 = r at h ⊢
  cases h with
  | stale hlt => omega
  | refused _ _ _ _ _ hno => exact absurd hc hno
  | accepted _ _ _ _ _ _ => exact ⟨rfl, rfl⟩

/-- One that fails it leaves the log alone, and is answered with a hint. -/
theorem handleAppendEntries_refuses {n : Node ω} {args : AppendEntriesArgs}
    (ht : n.currentTerm ≤ args.term) (hc : ¬ consistent n.log args) :
    (n.handleAppendEntries args).2 = conflictHint n.log args ∧
      (n.handleAppendEntries args).1.log = n.log ∧
      (n.handleAppendEntries args).1.currentTerm = args.term := by
  have h := n.appendHandled args
  generalize (n.handleAppendEntries args).1 = n' at h ⊢
  generalize (n.handleAppendEntries args).2 = r at h ⊢
  cases h with
  | stale hlt => omega
  | refused _ _ _ _ _ _ => exact ⟨rfl, rfl, rfl⟩
  | accepted _ _ _ _ _ hyes => exact absurd hyes hc

/-- Only a current request that passes the check is answered with success. -/
theorem handleAppendEntries_success {n : Node ω} {args : AppendEntriesArgs}
    (hs : (n.handleAppendEntries args).2.success = true) :
    n.currentTerm ≤ args.term ∧ consistent n.log args := by
  have h := n.appendHandled args
  generalize (n.handleAppendEntries args).1 = n' at h
  generalize (n.handleAppendEntries args).2 = r at h hs
  cases h with
  | stale _ => exact absurd hs (by simp)
  | refused _ _ _ _ _ _ =>
      unfold conflictHint at hs
      split at hs <;> exact absurd hs (by simp)
  | accepted _ _ _ _ ht hyes => exact ⟨ht, hyes⟩

theorem handleAppendEntries_commit_le (n : Node ω) (args : AppendEntriesArgs) :
    (n.handleAppendEntries args).1.commitIndex ≤ max n.commitIndex args.leaderCommit := by
  have h := n.appendHandled args
  generalize (n.handleAppendEntries args).1 = n' at h ⊢
  generalize (n.handleAppendEntries args).2 = r at h
  cases h with
  | stale _ => exact Nat.le_max_left _ _
  | refused _ _ _ _ _ _ => exact Nat.le_max_left _ _
  | accepted _ _ _ _ _ _ =>
      dsimp only
      unfold toldCommit
      split <;> omega

/-- A leader appends the command, whether or not it can persist it. -/
theorem submitCommand_eq (n : Node ω) (hs : n.state = .leader) (command : Command) : ∃ w,
    (n.submitCommand command).1 = { n with
      log := n.log.append [⟨n.currentTerm, n.log.lastIndex + 1, command⟩], wal := w } ∧
    ∀ index term, (n.submitCommand command).2 = .appended index term →
      index = n.log.lastIndex + 1 ∧ term = n.currentTerm := by
  let e : LogEntry := ⟨n.currentTerm, n.log.lastIndex + 1, command⟩
  obtain ⟨w, hw⟩ := ({ n with log := n.log.append [e] } : Node ω).persist_eq
    (.entry ⟨e.index, e.term, e.command⟩)
  unfold submitCommand
  rw [if_neg (by simpa using hs)]
  dsimp only
  refine ⟨w, ?_, ?_⟩
  · split <;> exact hw
  · intro index term heq
    split at heq
    · injection heq with h1 h2; exact ⟨h1.symm, h2.symm⟩
    · exact absurd heq (by simp)

/-- Anyone but a leader turns the command away; a leader appends it. -/
theorem submitCommand_cases (n : Node ω) (command : Command) :
    (n.state ≠ .leader ∧ n.submitCommand command = (n, .errNotLeader)) ∨
    (n.state = .leader ∧ ∃ w, (n.submitCommand command).1 = { n with
      log := n.log.append [⟨n.currentTerm, n.log.lastIndex + 1, command⟩], wal := w }) := by
  by_cases hs : n.state = .leader
  · obtain ⟨w, he, _⟩ := n.submitCommand_eq hs command
    exact Or.inr ⟨hs, w, he⟩
  · exact Or.inl ⟨hs, if_pos hs⟩

/-- A command is accepted by a leader only, and for the end of its log. -/
theorem submitCommand_appended {n : Node ω} {command : Command} {index term : Nat}
    (h : (n.submitCommand command).2 = .appended index term) :
    n.state = .leader ∧ index = n.log.lastIndex + 1 ∧ term = n.currentTerm := by
  rcases n.submitCommand_cases command with ⟨_, he⟩ | ⟨hs, _⟩
  · rw [he] at h
    exact absurd h (by simp)
  · obtain ⟨_, _, hres⟩ := n.submitCommand_eq hs command
    exact ⟨hs, hres index term h⟩

omit [Journal ω] in
theorem advanceCommitIndexLocked_eq (n : Node ω) : ∃ c, n.commitIndex ≤ c ∧
    n.advanceCommitIndexLocked = { n with commitIndex := c } := by
  unfold advanceCommitIndexLocked
  dsimp only
  split
  · exact ⟨n.commitIndex, le_rfl, rfl⟩
  · split
    · rename_i c _ hc; exact ⟨c, hc.1.le, rfl⟩
    · exact ⟨n.commitIndex, le_rfl, rfl⟩

omit [Journal ω] in
theorem ackedLocked_eq (n : Node ω) (p : NodeID) (k : Nat) : ∃ ni mi c, n.commitIndex ≤ c ∧
    n.ackedLocked p k = { n with nextIndex := ni, matchIndex := mi, commitIndex := c } := by
  unfold ackedLocked
  dsimp only
  generalize hn₁ : (if k > n.nextIndex p then
    ({ n with nextIndex := fun q => if q = p then k else n.nextIndex q } : Node ω) else n) = n₁
  have h₁ : ∃ ni, n₁ = { n with nextIndex := ni } := by
    rw [← hn₁]
    split
    · exact ⟨_, rfl⟩
    · exact ⟨n.nextIndex, rfl⟩
  obtain ⟨ni, rfl⟩ := h₁
  split
  · obtain ⟨c, hc, he⟩ := ({ n with
      nextIndex := ni
      matchIndex := fun q => if q = p then k - 1 else n.matchIndex q } : Node ω).advanceCommitIndexLocked_eq
    exact ⟨ni, _, c, hc, he⟩
  · obtain ⟨c, hc, he⟩ := ({ n with nextIndex := ni } : Node ω).advanceCommitIndexLocked_eq
    exact ⟨ni, n.matchIndex, c, hc, he⟩

/-- Where a refusal sends the next request. -/
def conflictNext (n : Node ω) (peer : NodeID) (r : AppendEntriesReply) : Nat :=
  if r.conflictTerm > 0 then
    if n.log.findLastFrom r.conflictTerm n.log.lastIndex > 0 then
      n.log.findLastFrom r.conflictTerm n.log.lastIndex + 1
    else r.conflictIndex
  else if r.conflictIndex > 0 then r.conflictIndex
  else if n.nextIndex peer > 1 then n.nextIndex peer - 1
  else n.nextIndex peer

omit [Journal ω] in
theorem handleConflictLocked_eq (n : Node ω) (p : NodeID) (r : AppendEntriesReply) :
    n.handleConflictLocked p r = { n with
      nextIndex := fun q => if q = p then n.conflictNext p r else n.nextIndex q } := by
  unfold handleConflictLocked conflictNext
  dsimp only
  split
  · split <;> rfl
  · split
    · rfl
    · split
      · rfl
      · have hsame : (fun q => if q = p then n.nextIndex p else n.nextIndex q) = n.nextIndex := by
          funext q
          split
          · rename_i hq; rw [hq]
          · rfl
        rw [hsame]

/-- The ways the goroutine of an election can take the reply of `p`. -/
inductive VoteReplied (n : Node ω) (t : Nat) (p : NodeID) (r : RequestVoteReply) : Node ω → Prop
  /-- Too late, refused, or counted before. -/
  | idle : (n.currentTerm = t → n.state = .candidate → r.term ≤ n.currentTerm) →
      VoteReplied n t p r n
  | stepDown : n.currentTerm = t → n.state = .candidate → n.currentTerm < r.term →
      VoteReplied n t p r (n.becomeFollowerLocked r.term)
  | counted : n.currentTerm = t → n.state = .candidate → r.term ≤ n.currentTerm →
      r.voteGranted = true → p ∉ n.votesReceived → n.votes + 1 < n.majority →
      VoteReplied n t p r { n with votesReceived := n.votesReceived ++ [p], votes := n.votes + 1 }
  | elected : n.currentTerm = t → n.state = .candidate → r.term ≤ n.currentTerm →
      r.voteGranted = true → p ∉ n.votesReceived → n.majority ≤ n.votes + 1 →
      VoteReplied n t p r
        { n with votesReceived := n.votesReceived ++ [p], votes := n.votes + 1 }.becomeLeaderLocked

theorem voteReplied (n : Node ω) (t : Nat) (p : NodeID) (r : RequestVoteReply) :
    VoteReplied n t p r (n.handleVoteReply t p r) := by
  unfold handleVoteReply
  by_cases hst : n.currentTerm ≠ t ∨ n.state ≠ .candidate
  · rw [if_pos hst]
    refine .idle fun ht hc => ?_
    exact absurd hst (not_or.mpr ⟨not_not.mpr ht, not_not.mpr hc⟩)
  rw [if_neg hst]
  obtain ⟨ht, hc⟩ := not_or.mp hst
  rw [not_not] at ht hc
  by_cases hhi : r.term > n.currentTerm
  · rw [if_pos hhi]; exact .stepDown ht hc hhi
  rw [if_neg hhi]
  have hlow : r.term ≤ n.currentTerm := Nat.le_of_not_lt hhi
  by_cases hg : r.voteGranted = true
  swap
  · rw [if_neg hg]; exact .idle fun _ _ => hlow
  rw [if_pos hg]
  by_cases hp : p ∈ n.votesReceived
  · rw [if_pos hp]; exact .idle fun _ _ => hlow
  rw [if_neg hp]
  dsimp only
  split
  · rename_i hmaj; exact .elected ht hc hlow hg hp hmaj
  · rename_i hmaj; exact .counted ht hc hlow hg hp (Nat.lt_of_not_le hmaj)

/-- A reply section steps down, or changes only what a leader counts. -/
theorem handleAppendReply_cases (n : Node ω) (t : Nat) (p : NodeID) (es : List LogEntry)
    (r : AppendEntriesReply) :
    (n.state = .leader ∧ (n.currentTerm = t ∧ n.currentTerm < r.term) ∧
      n.handleAppendReply t p es r = n.becomeFollowerLocked r.term) ∨
    ∃ ni mi c, n.commitIndex ≤ c ∧ (n.state ≠ .leader → c = n.commitIndex) ∧
      n.handleAppendReply t p es r =
        { n with nextIndex := ni, matchIndex := mi, commitIndex := c } := by
  unfold handleAppendReply
  by_cases hst : n.state ≠ .leader ∨ n.currentTerm ≠ t
  · rw [if_pos hst]
    exact Or.inr ⟨n.nextIndex, n.matchIndex, n.commitIndex, le_rfl, fun _ => rfl, rfl⟩
  rw [if_neg hst]
  have hlead : n.state = .leader := by
    by_contra hne; exact hst (Or.inl hne)
  have hterm : n.currentTerm = t := by
    by_contra hne; exact hst (Or.inr hne)
  by_cases hhi : r.term > n.currentTerm
  · rw [if_pos hhi]; exact Or.inl ⟨hlead, ⟨hterm, hhi⟩, rfl⟩
  rw [if_neg hhi]
  right
  split
  · split
    · exact ⟨n.nextIndex, n.matchIndex, n.commitIndex, le_rfl, fun _ => rfl, rfl⟩
    · rename_i last _
      obtain ⟨ni, mi, c, hc, he⟩ := n.ackedLocked_eq p (last.index + 1)
      exact ⟨ni, mi, c, hc, fun hne => absurd hlead hne, he⟩
  · have he := n.handleConflictLocked_eq p r
    exact ⟨_, n.matchIndex, n.commitIndex, le_rfl, fun _ => rfl, he⟩

omit [Journal ω] in
theorem updateCommit_eq (n : Node ω) (c : Nat) (h : n.commitIndex ≤ n.log.body.length) :
    n.updateCommit c = { n with commitIndex := max n.commitIndex (min c n.log.body.length) } := by
  unfold updateCommit
  rw [RaftLog.lastIndex_eq]
  by_cases hc : c > n.commitIndex
  · rw [if_pos hc]
    congr 1
    split <;> omega
  · rw [if_neg hc]
    rw [show max n.commitIndex (min c n.log.body.length) = n.commitIndex by omega]

end Node

end GammaFlow.Raft
