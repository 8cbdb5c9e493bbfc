import GammaFlow.Raft.Alike
import GammaFlow.Raft.Writes

/-!
# The write-ahead log is only written to

While a node runs, nothing it does depends on what is in its write-ahead log, or on whether
it has one: a node without a log, driven by the same events, goes through the same states
(`volatile`), as long as appends do not fail. Only `SubmitCommand` looks at whether they do.

So clusters whose logs are kept in different ways can be compared event by event, by what
they have in memory and by the records they have appended (`same_course`).
-/

namespace GammaFlow.Raft

open GammaFlow.Storage

/-- There is no log to append to. -/
instance : Journal Empty where
  append d _ := d.elim

/-- Every append returns `nil`. -/
def NeverFails (ω : Type) [Journal ω] : Prop :=
  ∀ (d : ω) (r : WalRecord), (Journal.append d r).2 = true

namespace Node

variable {ω : Type}

/-- The node without its write-ahead log. -/
def volatile (n : Node ω) : Node Empty where
  id := n.id
  peers := n.peers
  currentTerm := n.currentTerm
  votedFor := n.votedFor
  log := n.log
  state := n.state
  commitIndex := n.commitIndex
  lastApplied := n.lastApplied
  leaderID := n.leaderID
  nextIndex := n.nextIndex
  matchIndex := n.matchIndex
  votes := n.votes
  votesReceived := n.votesReceived
  wal := none
  rt := n.rt

/-- What a section returns, without the log. -/
def volatileResult {β : Type} (x : Node ω × β) : Node Empty × β := (x.1.volatile, x.2)

theorem volatileResult_mk {β : Type} (n : Node ω) (b : β) :
    volatileResult (n, b) = (n.volatile, b) := rfl

variable [Journal ω]

theorem volatile_persist (n : Node ω) (r : WalRecord) : (n.persist r).1.volatile = n.volatile := by
  rw [persist_node]
  rfl

theorem volatile_persistEntries (n : Node ω) (es : List LogEntry) :
    (n.persistEntries es).volatile = n.volatile := by
  rw [persistEntries_node]
  rfl

theorem volatile_startElection (n : Node ω) :
    volatileResult n.startElection = n.volatile.startElection := by
  unfold startElection
  dsimp only
  rw [persist_node, persist_node, persist_node, persist_node]
  rfl

theorem volatile_becomeFollowerLocked (n : Node ω) (term : Nat) :
    (n.becomeFollowerLocked term).volatile = n.volatile.becomeFollowerLocked term := by
  -- the branches before the log is touched, and after
  have hsee : (if term > n.currentTerm then
        ({ n with currentTerm := term, votedFor := "" }.persist (.term term)).1 else n).volatile =
      if term > n.volatile.currentTerm then
        ({ n.volatile with currentTerm := term, votedFor := "" }.persist (.term term)).1
      else n.volatile := by
    rw [apply_ite volatile, volatile_persist]
    rfl
  unfold becomeFollowerLocked
  dsimp only
  rw [← hsee]
  generalize (if term > n.currentTerm then
    ({ n with currentTerm := term, votedFor := "" }.persist (.term term)).1 else n) = m
  by_cases hs : m.state = .leader
  · rw [if_pos hs, if_pos (show m.volatile.state = .leader from hs)]
    rfl
  · rw [if_neg hs, if_neg (show ¬ m.volatile.state = .leader from hs)]
    rfl

theorem volatile_seeTerm (n : Node ω) (term : Nat) :
    (n.seeTerm term).volatile = n.volatile.seeTerm term := by
  unfold seeTerm
  rw [apply_ite volatile, volatile_becomeFollowerLocked]
  rfl

theorem volatile_castVote (n : Node ω) (args : RequestVoteArgs) (reply : RequestVoteReply) :
    volatileResult (n.castVote args reply) = n.volatile.castVote args reply := by
  unfold castVote
  dsimp only
  rw [apply_ite volatileResult, volatileResult_mk, volatile_persist]
  rfl

theorem volatile_handleRequestVote (n : Node ω) (args : RequestVoteArgs) :
    volatileResult (n.handleRequestVote args) = n.volatile.handleRequestVote args := by
  have hsee := n.volatile_seeTerm args.term
  unfold seeTerm at hsee
  unfold handleRequestVote
  dsimp only
  rw [← hsee, apply_ite volatileResult, volatile_castVote]
  rfl

theorem volatile_handleVoteReply (n : Node ω) (term : Nat) (p : NodeID)
    (reply : RequestVoteReply) :
    (n.handleVoteReply term p reply).volatile = n.volatile.handleVoteReply term p reply := by
  unfold handleVoteReply
  dsimp only
  rw [apply_ite volatile, apply_ite volatile, volatile_becomeFollowerLocked, apply_ite volatile,
    apply_ite volatile, apply_ite volatile]
  rfl

theorem volatile_acceptLeader (n : Node ω) (args : AppendEntriesArgs) :
    (n.acceptLeader args).volatile = n.volatile.acceptLeader args := by
  have hsee := n.volatile_seeTerm args.term
  unfold seeTerm at hsee
  unfold acceptLeader
  dsimp only
  rw [← hsee]
  generalize (if args.term > n.currentTerm then n.becomeFollowerLocked args.term else n) = m
  by_cases hs : m.state ≠ .follower
  · rw [if_pos hs, if_pos (show m.volatile.state ≠ .follower from hs)]
    rfl
  · rw [if_neg hs, if_neg (show ¬ m.volatile.state ≠ .follower from hs)]
    rfl

theorem volatile_appendNew (es : List LogEntry) : ∀ (n : Node ω) (idx : Nat),
    (n.appendNew idx es).volatile = n.volatile.appendNew idx es := by
  induction es with
  | nil => intro n idx; rfl
  | cons e es ih =>
      intro n idx
      rw [appendNew, appendNew, apply_ite volatile, apply_ite volatile, volatile_persistEntries,
        volatile_persistEntries, ih, persistEntries_node, persistEntries_node]
      rfl

theorem volatile_checkAndAppend (n : Node ω) (args : AppendEntriesArgs) :
    volatileResult (n.checkAndAppend args) = n.volatile.checkAndAppend args := by
  have hcommit : ∀ m : Node ω, (m.updateCommit args.leaderCommit).volatile =
      m.volatile.updateCommit args.leaderCommit := by
    intro m
    unfold updateCommit
    rw [apply_ite volatile]
    rfl
  unfold checkAndAppend
  dsimp only
  rw [apply_ite volatileResult, apply_ite volatileResult, volatileResult_mk, volatileResult_mk,
    volatileResult_mk, hcommit, volatile_appendNew]
  rfl

theorem volatile_handleAppendEntries (n : Node ω) (args : AppendEntriesArgs) :
    volatileResult (n.handleAppendEntries args) = n.volatile.handleAppendEntries args := by
  unfold handleAppendEntries
  rw [apply_ite volatileResult, volatile_checkAndAppend, volatile_acceptLeader]
  rfl

omit [Journal ω] in
theorem volatile_advanceCommitIndexLocked (n : Node ω) :
    n.advanceCommitIndexLocked.volatile = n.volatile.advanceCommitIndexLocked := by
  unfold advanceCommitIndexLocked
  dsimp only [volatile]
  generalize ((n.log.lastIndex :: n.peers.map n.matchIndex).insertionSort
    (· ≥ ·))[(n.peers.length + 1) / 2]? = x
  cases x with
  | none => rfl
  | some c =>
      exact apply_ite volatile _ _ _

omit [Journal ω] in
theorem volatile_ackedLocked (n : Node ω) (p : NodeID) (newNextIdx : Nat) :
    (n.ackedLocked p newNextIdx).volatile = n.volatile.ackedLocked p newNextIdx := by
  unfold ackedLocked
  dsimp only
  have hnext : (if newNextIdx > n.nextIndex p then
        { n with nextIndex := fun q => if q = p then newNextIdx else n.nextIndex q } else n).volatile =
      if newNextIdx > n.volatile.nextIndex p then
        { n.volatile with nextIndex := fun q => if q = p then newNextIdx else n.volatile.nextIndex q }
      else n.volatile := apply_ite volatile _ _ _
  rw [volatile_advanceCommitIndexLocked, ← hnext, apply_ite volatile]
  rfl

omit [Journal ω] in
theorem volatile_handleConflictLocked (n : Node ω) (p : NodeID) (reply : AppendEntriesReply) :
    (n.handleConflictLocked p reply).volatile = n.volatile.handleConflictLocked p reply := by
  unfold handleConflictLocked
  dsimp only
  rw [apply_ite volatile, apply_ite volatile, apply_ite volatile, apply_ite volatile]
  rfl

theorem volatile_handleAppendReply (n : Node ω) (term : Nat) (p : NodeID) (es : List LogEntry)
    (reply : AppendEntriesReply) : (n.handleAppendReply term p es reply).volatile =
      n.volatile.handleAppendReply term p es reply := by
  unfold handleAppendReply
  rw [apply_ite volatile, apply_ite volatile, volatile_becomeFollowerLocked, apply_ite volatile,
    volatile_handleConflictLocked]
  cases es.getLast? with
  | none => rfl
  | some last =>
      dsimp only
      rw [volatile_ackedLocked]
      rfl

theorem persist_ok (h : NeverFails ω) (n : Node ω) (r : WalRecord) : (n.persist r).2 = true := by
  unfold persist
  split
  · rfl
  · rename_i d _
    exact h d r

theorem volatile_submitCommand (h : NeverFails ω) (n : Node ω) (command : Command) :
    volatileResult (n.submitCommand command) = n.volatile.submitCommand command := by
  unfold submitCommand
  dsimp only
  rw [apply_ite volatileResult, persist_ok h, if_pos rfl, volatileResult_mk,
    volatileResult_mk, volatile_persist]
  rfl

/-! What a section writes depends on what it finds in memory. -/

theorem requestVoteWrites_volatile (n : Node ω) (args : RequestVoteArgs) :
    n.volatile.requestVoteWrites args = n.requestVoteWrites args := by
  unfold requestVoteWrites
  rw [← volatile_seeTerm]
  rfl

end Node

variable {ω ω' : Type}

/-- The same members, started with other logs. -/
def Config.over (cfg : Config ω) (wal : NodeID → Option ω') : Config ω' where
  ids := cfg.ids
  nodup := cfg.nodup
  id_ne_empty := cfg.id_ne_empty
  peers := cfg.peers
  peers_perm := cfg.peers_perm
  wal := wal

/-- The members without logs. -/
def Config.volatile (cfg : Config ω) : Config Empty := cfg.over fun _ => none

namespace Cluster

/-- The cluster without the logs of its nodes. -/
def volatile (w : Cluster ω) : Cluster Empty where
  nodes i := (w.nodes i).volatile
  heartbeats := w.heartbeats
  voteCalls := w.voteCalls
  voteReplies := w.voteReplies
  appendCalls := w.appendCalls
  appendReplies := w.appendReplies
  applying := w.applying
  applyCh := w.applyCh
  submits := w.submits
  returned := w.returned

theorem volatile_setNode (w : Cluster ω) (i : NodeID) (n : Node ω) :
    (w.setNode i n).volatile = w.volatile.setNode i n.volatile := by
  have hnodes : (fun j => (Function.update w.nodes i n j).volatile) =
      Function.update (fun j => (w.nodes j).volatile) i n.volatile := by
    funext j
    exact Function.apply_update (fun _ => Node.volatile) w.nodes i n j
  unfold setNode volatile
  dsimp only
  rw [hnodes]

variable [Journal ω] {cfg : Config ω}

theorem writes_volatile (w : Cluster ω) (i : NodeID) (ev : Event) :
    w.volatile.writes i ev = w.writes i ev := by
  cases ev with
  | requestVote k =>
      unfold writes
      dsimp only [volatile]
      cases w.voteCalls[k]? with
      | none => rfl
      | some c =>
          dsimp only
          rw [Node.requestVoteWrites_volatile]
  | _ => rfl

/-- No section asks for the log, as long as appends do not fail. -/
theorem respects_volatile (hf : NeverFails ω) :
    Respects fun (n : Node ω) (n' : Node Empty) => n' = n.volatile where
  reads h := by rw [h]; exact ⟨rfl, rfl, rfl, rfl, rfl, rfl, rfl, rfl⟩
  startElection h := by rw [h, ← Node.volatile_startElection]; exact ⟨rfl, rfl⟩
  handleRequestVote h args := by
    rw [h, ← Node.volatile_handleRequestVote]; exact ⟨rfl, rfl⟩
  handleVoteReply h term p reply := by rw [h, Node.volatile_handleVoteReply]
  handleAppendEntries h args := by
    rw [h, ← Node.volatile_handleAppendEntries]; exact ⟨rfl, rfl⟩
  handleAppendReply h term p es reply := by rw [h, Node.volatile_handleAppendReply]
  submitCommand h command := by
    rw [h, ← Node.volatile_submitCommand hf]; exact ⟨rfl, rfl⟩
  applied h c := by rw [h]; rfl

/-- **An event does the same with and without the logs.** -/
theorem act_volatile (h : NeverFails ω) (w : Cluster ω) (ev : Event) :
    (w.act cfg ev).map volatile = w.volatile.act cfg.volatile ev := by
  have hself : Alike (fun (n : Node ω) (n' : Node Empty) => n' = n.volatile) w w.volatile :=
    ⟨fun _ => rfl, rfl, rfl, rfl, rfl, rfl, rfl, rfl, rfl, rfl⟩
  have hboth : Together _ (w.act cfg ev) (w.volatile.act cfg.volatile ev) :=
    act_alike (respects_volatile h) rfl hself ev
  generalize w.act cfg ev = o at hboth ⊢
  generalize w.volatile.act cfg.volatile ev = o' at hboth ⊢
  cases hboth with
  | none => rfl
  | some halike =>
      rename_i v v'
      obtain ⟨⟩ := v'
      obtain ⟨hn, rfl, rfl, rfl, rfl, rfl, rfl, rfl, rfl, rfl⟩ := halike
      obtain rfl := funext hn
      rfl

/-- **Whole runs too.** -/
theorem exec_volatile (h : NeverFails ω) : ∀ (evs : List Event) (w : Cluster ω),
    (w.exec cfg evs).map volatile = w.volatile.exec cfg.volatile evs := by
  intro evs
  induction evs with
  | nil => intro w; rfl
  | cons ev evs ih =>
      intro w
      show ((w.act cfg ev).bind fun w' => w'.exec cfg evs).map volatile =
        (w.volatile.act cfg.volatile ev).bind fun w' => w'.exec cfg.volatile evs
      rw [← act_volatile h]
      cases w.act cfg ev with
      | none => rfl
      | some w' => exact ih w'

/-- The records that node `i` appends in a run. -/
def written (cfg : Config ω) (i : NodeID) : Cluster ω → List Event → List WalRecord
  | _, [] => []
  | w, ev :: evs =>
      w.writes i ev ++
        match w.act cfg ev with
        | none => []
        | some w' => written cfg i w' evs

theorem exec_wal (i : NodeID) : ∀ {evs : List Event} {w w' : Cluster ω},
    w.exec cfg evs = some w' →
    (w'.nodes i).wal = (w.nodes i).wal.map (Journal.appendAll · (w.written cfg i evs)) := by
  intro evs
  induction evs with
  | nil =>
      intro w w' hx
      rw [← Option.some.inj hx]
      exact (Node.map_appendAll_nil _).symm
  | cons ev evs ih =>
      intro w w' hx
      obtain ⟨w₁, hw₁, hx⟩ := Execution.exec_cons.mp hx
      rw [ih hx, act_wal hw₁ i, Node.map_appendAll, written, hw₁]

theorem written_volatile (h : NeverFails ω) (i : NodeID) : ∀ (evs : List Event) (w : Cluster ω),
    w.volatile.written cfg.volatile i evs = w.written cfg i evs := by
  intro evs
  induction evs with
  | nil => intro w; rfl
  | cons ev evs ih =>
      intro w
      rw [written, written, writes_volatile, ← act_volatile h]
      cases w.act cfg ev with
      | none => rfl
      | some w' => exact congrArg (w.writes i ev ++ ·) (ih w')

end Cluster

/--
**The course of a cluster does not depend on how its logs are kept.** Of two clusters with
the same members and logs that do not fail, whatever else these do with records, one can go
through a list of events exactly if the other can. They then agree in everything but their
logs, and each node has appended the same records, in the same order.
-/
theorem same_course [Journal ω] [Journal ω'] (h : NeverFails ω) (h' : NeverFails ω')
    (cfg : Config ω) (wal' : NodeID → Option ω') (evs : List Event) :
    ((Cluster.init cfg).exec cfg evs).map Cluster.volatile =
      ((Cluster.init (cfg.over wal')).exec (cfg.over wal') evs).map Cluster.volatile ∧
    ∃ rs : NodeID → List WalRecord, ∀ i,
      (∀ w ∈ (Cluster.init cfg).exec cfg evs,
        (w.nodes i).wal = (cfg.wal i).map (Journal.appendAll · (rs i))) ∧
      (∀ w' ∈ (Cluster.init (cfg.over wal')).exec (cfg.over wal') evs,
        (w'.nodes i).wal = (wal' i).map (Journal.appendAll · (rs i))) := by
  refine ⟨?_, fun i => (Cluster.init cfg).written cfg i evs, fun i => ⟨?_, ?_⟩⟩
  · rw [Cluster.exec_volatile h, Cluster.exec_volatile h']
    rfl
  · intro w hw
    exact Cluster.exec_wal i hw
  · intro w' hw'
    have hwritten : (Cluster.init cfg).written cfg i evs =
        (Cluster.init (cfg.over wal')).written (cfg.over wal') i evs := by
      rw [← Cluster.written_volatile h, ← Cluster.written_volatile h']
      rfl
    dsimp only
    rw [hwritten]
    exact Cluster.exec_wal i hw'

/-- The logs that the nodes are modelled with do not fail. -/
theorem neverFails_wal {rotates : List (List WalRecord) → WalRecord → Bool} :
    NeverFails (Wal rotates) := fun _ _ => rfl

/-- Logs that open a file for each record. -/
def scatteredABC : Config (Wal fun _ _ => true) := abc (some Wal.empty)

/-- A cluster with such logs, and one with none. -/
theorem same_course_abc : ∃ w ∈ (Cluster.init scatteredABC).exec scatteredABC replicateEvents,
    ∃ w' ∈ (Cluster.init volatileABC).exec volatileABC replicateEvents,
      w.volatile = w'.volatile ∧ (w.nodes "c").wal = some ⟨[[], [.term 1], [.entry ⟨1, 1, [1]⟩]]⟩ ∧
      ∃ rs, (w.nodes "c").wal = some (Journal.appendAll Wal.empty rs) := by
  obtain ⟨w, hw, hwal⟩ : ∃ w ∈ (Cluster.init scatteredABC).exec scatteredABC replicateEvents,
      (w.nodes "c").wal = some ⟨[[], [.term 1], [.entry ⟨1, 1, [1]⟩]]⟩ := by
    decide +kernel
  obtain ⟨hsame, rs, hrs⟩ := same_course neverFails_wal neverFails_wal scatteredABC
    (fun _ => (none : Option OneFile)) replicateEvents
  rw [Option.mem_def.mp hw] at hsame
  obtain ⟨w', hw', hv⟩ := Option.map_eq_some_iff.mp hsame.symm
  exact ⟨w, hw, w', hw', hv.symm, hwal, rs "c", (hrs "c").1 w hw⟩

end GammaFlow.Raft
