import GammaFlow.Raft.Alike
import GammaFlow.Raft.Writes

/-!
# Timers decide when, and nothing else

Timers, and the contexts of the replication goroutines, wake the goroutines of a node. No
section of the node asks what state they are in: nodes that differ in nothing else do the
same and answer the same, and differ in nothing else afterwards (`act_timed`).

So what is known of a cluster whose timers are left alone holds with any timers.
-/

namespace GammaFlow.Raft

open GammaFlow.Storage

variable {ω : Type}

namespace Node

/-- The node with other timers. -/
def timed (n : Node ω) (rt : Runtime) : Node ω := { n with rt := rt }

/-- The node without its timers. -/
def untimed (n : Node ω) : Node ω := n.timed Runtime.empty

/-- What a section returns, without the timers. -/
def untimedResult {β : Type} (x : Node ω × β) : Node ω × β := (x.1.untimed, x.2)

theorem untimedResult_mk {β : Type} (n : Node ω) (b : β) :
    untimedResult (n, b) = (n.untimed, b) := rfl

theorem eq_timed {m n : Node ω} (h : m.untimed = n.untimed) : m = n.timed m.rt := by
  have hsame : m.untimed.timed m.rt = n.untimed.timed m.rt := by rw [h]
  exact hsame

theorem eq_timedResult {β : Type} {x y : Node ω × β} (h : untimedResult x = untimedResult y) :
    x = (y.1.timed x.1.rt, y.2) := by
  have hnode : (untimedResult x).1 = (untimedResult y).1 := by rw [h]
  have hreply : (untimedResult x).2 = (untimedResult y).2 := by rw [h]
  exact Prod.ext (eq_timed hnode) hreply

section Sections

variable [Journal ω] (n : Node ω) (rt : Runtime)

theorem untimed_persist (r : WalRecord) :
    untimedResult ((n.timed rt).persist r) = untimedResult (n.persist r) := by
  unfold persist
  obtain ⟨⟩ := n
  dsimp only [timed]
  split <;> rfl

theorem untimed_startElection :
    untimedResult (n.timed rt).startElection = untimedResult n.startElection := by
  unfold startElection
  dsimp only
  rw [persist_node, persist_node, persist_node, persist_node]
  rfl

theorem untimed_becomeFollowerLocked (term : Nat) :
    ((n.timed rt).becomeFollowerLocked term).untimed = (n.becomeFollowerLocked term).untimed := by
  unfold becomeFollowerLocked
  dsimp only [timed]
  simp only [persist_node]
  by_cases ht : term > n.currentTerm
  · simp only [if_pos ht]
    split <;> rfl
  · simp only [if_neg ht]
    split <;> rfl

theorem untimed_seeTerm (term : Nat) :
    ((n.timed rt).seeTerm term).untimed = (n.seeTerm term).untimed := by
  unfold seeTerm
  rw [apply_ite untimed, untimed_becomeFollowerLocked, apply_ite untimed]
  rfl

theorem untimed_castVote (args : RequestVoteArgs) (reply : RequestVoteReply) :
    untimedResult ((n.timed rt).castVote args reply) = untimedResult (n.castVote args reply) := by
  unfold castVote
  dsimp only
  rw [apply_ite untimedResult, apply_ite untimedResult, persist_node, persist_node]
  rfl

theorem untimed_handleRequestVote (args : RequestVoteArgs) :
    untimedResult ((n.timed rt).handleRequestVote args) =
      untimedResult (n.handleRequestVote args) := by
  have hsee := eq_timed (n.untimed_seeTerm rt args.term)
  unfold seeTerm at hsee
  unfold handleRequestVote
  dsimp only
  rw [hsee, apply_ite untimedResult, apply_ite untimedResult, untimed_castVote]
  rfl

theorem untimed_handleVoteReply (term : Nat) (p : NodeID) (reply : RequestVoteReply) :
    ((n.timed rt).handleVoteReply term p reply).untimed =
      (n.handleVoteReply term p reply).untimed := by
  unfold handleVoteReply
  dsimp only
  simp only [apply_ite untimed, untimed_becomeFollowerLocked]
  rfl

theorem untimed_acceptLeader (args : AppendEntriesArgs) :
    ((n.timed rt).acceptLeader args).untimed = (n.acceptLeader args).untimed := by
  obtain ⟨rt', hsee⟩ : ∃ rt', (n.timed rt).seeTerm args.term = (n.seeTerm args.term).timed rt' :=
    ⟨_, eq_timed (n.untimed_seeTerm rt args.term)⟩
  unfold seeTerm at hsee
  unfold acceptLeader
  dsimp only
  rw [hsee]
  generalize (if args.term > n.currentTerm then n.becomeFollowerLocked args.term else n) = m
  by_cases hs : m.state ≠ .follower
  · rw [if_pos hs, if_pos (show (m.timed rt').state ≠ .follower from hs)]
    rfl
  · rw [if_neg hs, if_neg (show ¬ (m.timed rt').state ≠ .follower from hs)]
    rfl

theorem untimed_appendNew (es : List LogEntry) : ∀ (n : Node ω) (rt : Runtime) (idx : Nat),
    ((n.timed rt).appendNew idx es).untimed = (n.appendNew idx es).untimed := by
  induction es with
  | nil => intro n rt idx; rfl
  | cons e es ih =>
      intro n rt idx
      rw [appendNew, appendNew]
      simp only [apply_ite untimed, persistEntries_node, ih]
      rfl

omit [Journal ω] in
theorem untimed_updateCommit (leaderCommit : Nat) :
    ((n.timed rt).updateCommit leaderCommit).untimed = (n.updateCommit leaderCommit).untimed := by
  unfold updateCommit
  simp only [apply_ite untimed]
  rfl

theorem untimed_checkAndAppend (args : AppendEntriesArgs) :
    untimedResult ((n.timed rt).checkAndAppend args) = untimedResult (n.checkAndAppend args) := by
  have hnew := eq_timed (untimed_appendNew args.entries n rt (args.prevLogIndex + 1))
  unfold checkAndAppend
  dsimp only
  rw [hnew]
  simp only [apply_ite untimedResult, untimedResult_mk, untimed_updateCommit]
  rfl

theorem untimed_handleAppendEntries (args : AppendEntriesArgs) :
    untimedResult ((n.timed rt).handleAppendEntries args) =
      untimedResult (n.handleAppendEntries args) := by
  unfold handleAppendEntries
  rw [eq_timed (n.untimed_acceptLeader rt args)]
  simp only [apply_ite untimedResult, untimed_checkAndAppend]
  rfl

omit [Journal ω] in
theorem untimed_advanceCommitIndexLocked :
    (n.timed rt).advanceCommitIndexLocked.untimed = n.advanceCommitIndexLocked.untimed := by
  unfold advanceCommitIndexLocked
  dsimp only
  generalize hx : (((n.timed rt).log.lastIndex :: (n.timed rt).peers.map
    (n.timed rt).matchIndex).insertionSort (· ≥ ·))[((n.timed rt).peers.length + 1) / 2]? = x
  have hx' : ((n.log.lastIndex :: n.peers.map n.matchIndex).insertionSort
    (· ≥ ·))[(n.peers.length + 1) / 2]? = x := hx
  rw [hx']
  cases x with
  | none => rfl
  | some c =>
      dsimp only
      rw [apply_ite untimed, apply_ite untimed]
      rfl

omit [Journal ω] in
theorem untimed_ackedLocked (p : NodeID) (newNextIdx : Nat) :
    ((n.timed rt).ackedLocked p newNextIdx).untimed = (n.ackedLocked p newNextIdx).untimed := by
  have hnext : (if newNextIdx > (n.timed rt).nextIndex p then { n.timed rt with
        nextIndex := fun q => if q = p then newNextIdx else (n.timed rt).nextIndex q }
      else n.timed rt) =
      (if newNextIdx > n.nextIndex p then { n with
        nextIndex := fun q => if q = p then newNextIdx else n.nextIndex q } else n).timed rt := by
    rw [apply_ite (timed · rt)]
    rfl
  unfold ackedLocked
  dsimp only
  rw [hnext]
  generalize (if newNextIdx > n.nextIndex p then { n with
    nextIndex := fun q => if q = p then newNextIdx else n.nextIndex q } else n) = m
  have hmatch : (if newNextIdx - 1 > (m.timed rt).matchIndex p then { m.timed rt with
        matchIndex := fun q => if q = p then newNextIdx - 1 else (m.timed rt).matchIndex q }
      else m.timed rt) =
      (if newNextIdx - 1 > m.matchIndex p then { m with
        matchIndex := fun q => if q = p then newNextIdx - 1 else m.matchIndex q } else m).timed rt := by
    rw [apply_ite (timed · rt)]
    rfl
  rw [hmatch, untimed_advanceCommitIndexLocked]

theorem untimed_handleAppendReply (term : Nat) (p : NodeID) (es : List LogEntry)
    (reply : AppendEntriesReply) : ((n.timed rt).handleAppendReply term p es reply).untimed =
      (n.handleAppendReply term p es reply).untimed := by
  have hconflict : ((n.timed rt).handleConflictLocked p reply).untimed =
      (n.handleConflictLocked p reply).untimed := by
    rw [handleConflictLocked_eq, handleConflictLocked_eq]
    rfl
  unfold handleAppendReply
  simp only [apply_ite untimed, untimed_becomeFollowerLocked, hconflict]
  cases es.getLast? with
  | none => rfl
  | some last =>
      dsimp only
      rw [untimed_ackedLocked]
      rfl

theorem untimed_submitCommand (command : Command) :
    untimedResult ((n.timed rt).submitCommand command) =
      untimedResult (n.submitCommand command) := by
  -- the entry is appended to the log before it is written
  have hwrite : ∀ (log : RaftLog) (r : WalRecord),
      ({ n.timed rt with log := log } : Node ω).persist r = _ := fun log r =>
    eq_timedResult (({ n with log := log } : Node ω).untimed_persist rt r)
  by_cases hl : n.state ≠ .leader
  · rw [submitCommand, submitCommand, if_pos hl, if_pos (show (n.timed rt).state ≠ .leader from hl)]
    rfl
  · rw [submitCommand, submitCommand, if_neg hl,
      if_neg (show ¬ (n.timed rt).state ≠ .leader from hl)]
    dsimp only
    rw [hwrite, apply_ite untimedResult, apply_ite untimedResult]
    rfl

end Sections

/-- The nodes differ in their timers at most. -/
def SameButTimers (n n' : Node ω) : Prop := n'.untimed = n.untimed

theorem both_of_untimed {β : Type} {x x' : Node ω × β} (h : untimedResult x' = untimedResult x) :
    Both SameButTimers x x' :=
  Prod.ext_iff.mp h

theorem respects_timers [Journal ω] : Respects (SameButTimers (ω := ω)) where
  reads h := by rw [eq_timed h]; exact ⟨rfl, rfl, rfl, rfl, rfl, rfl, rfl, rfl⟩
  startElection h := by rw [eq_timed h]; exact both_of_untimed (untimed_startElection _ _)
  handleRequestVote h args := by
    rw [eq_timed h]; exact both_of_untimed (untimed_handleRequestVote _ _ args)
  handleVoteReply h term p reply := by
    rw [eq_timed h]; exact untimed_handleVoteReply _ _ term p reply
  handleAppendEntries h args := by
    rw [eq_timed h]; exact both_of_untimed (untimed_handleAppendEntries _ _ args)
  handleAppendReply h term p es reply := by
    rw [eq_timed h]; exact untimed_handleAppendReply _ _ term p es reply
  submitCommand h command := by
    rw [eq_timed h]; exact both_of_untimed (untimed_submitCommand _ _ command)
  applied h c := by rw [eq_timed h]; rfl

end Node

namespace Cluster

/-- The cluster with other timers. -/
def timed (w : Cluster ω) (rts : NodeID → Runtime) : Cluster ω :=
  { w with nodes := fun i => (w.nodes i).timed (rts i) }

theorem timed_setNode (w : Cluster ω) (rts : NodeID → Runtime) (i : NodeID) (n : Node ω)
    (rt : Runtime) :
    (w.timed rts).setNode i (n.timed rt) = (w.setNode i n).timed (Function.update rts i rt) := by
  have hnodes : Function.update (fun j => (w.nodes j).timed (rts j)) i (n.timed rt) =
      fun j => (Function.update w.nodes i n j).timed (Function.update rts i rt j) := by
    funext j
    by_cases hj : j = i
    · subst hj; simp
    · simp [hj]
  unfold setNode timed
  dsimp only
  rw [hnodes]

theorem Alike.eq_timed {w v : Cluster ω} (h : Alike Node.SameButTimers w v) :
    v = w.timed fun i => (v.nodes i).rt := by
  have hnodes : v.nodes = fun i => (w.nodes i).timed (v.nodes i).rt :=
    funext fun i => Node.eq_timed (h.nodes i)
  obtain ⟨⟩ := v
  obtain ⟨_, rfl, rfl, rfl, rfl, rfl, rfl, rfl, rfl, rfl⟩ := h
  exact congrArg (fun f => ({ w with nodes := f } : Cluster ω)) hnodes

variable [Journal ω] {cfg : Config ω} {w w' : Cluster ω} {ev : Event}

/-- **An event does the same whatever the timers are.** -/
theorem act_timed (hs : w.act cfg ev = some w') (rts : NodeID → Runtime) :
    ∃ rts', (w.timed rts).act cfg ev = some (w'.timed rts') := by
  have hself : Alike Node.SameButTimers w (w.timed rts) :=
    ⟨fun _ => rfl, rfl, rfl, rfl, rfl, rfl, rfl, rfl, rfl, rfl⟩
  have hboth : Together Node.SameButTimers (w.act cfg ev) ((w.timed rts).act cfg ev) :=
    act_alike Node.respects_timers rfl hself ev
  rw [hs] at hboth
  generalize (w.timed rts).act cfg ev = o at hboth ⊢
  cases hboth with
  | some halike => exact ⟨_, congrArg some halike.eq_timed⟩

end Cluster

end GammaFlow.Raft
