import Mathlib.Logic.Function.Basic
import GammaFlow.Lib.Execution
import GammaFlow.Raft.Node

/-!
# The cluster

Nodes, the goroutines between two lock acquisitions, and the network. An event is
one lock-protected section together with what it sends.

The network keeps every request and every reply that was ever sent, and may
deliver any of them, to its addressee, at any time and any number of times. A run
in which messages are delayed, reordered or lost is a run of this model.

`sendHeartbeats` takes two events. The first captures term and commit index and
leaves one task a peer; the second, arbitrarily later, reads `nextIndex` and the
log for one of those tasks, whatever has become of the node by then.
-/

namespace GammaFlow.Raft

open GammaFlow.Storage

/-- Who is in the cluster, and what each node is started with. -/
structure Config (ω : Type) where
  ids : List NodeID
  nodup : ids.Nodup
  id_ne_empty : "" ∉ ids
  peers : NodeID → List NodeID
  /-- Every node has all the others as peers. -/
  peers_perm : ∀ i ∈ ids, (peers i).Perm (ids.erase i)
  wal : NodeID → Option ω

/-- A `RequestVote` goroutine: the call and whom it was made by and to. -/
structure VoteCall where
  caller : NodeID
  peer : NodeID
  args : RequestVoteArgs
  deriving DecidableEq, Repr

/-- An `AppendEntries` call. -/
structure AppendCall where
  caller : NodeID
  peer : NodeID
  args : AppendEntriesArgs
  deriving DecidableEq, Repr

/-- A heartbeat goroutine that has not read the log yet. -/
structure Heartbeat where
  caller : NodeID
  peer : NodeID
  term : Nat
  leaderID : NodeID
  commitIndex : Nat
  deriving DecidableEq, Repr

/-- A `SubmitCommand` call that has appended its entry. -/
structure Submit where
  node : NodeID
  command : Command
  index : Nat
  term : Nat
  deriving DecidableEq, Repr

/-- How such a call returns. -/
inductive Outcome where
  | success
  | errNotLeader
  | errTimeout
  deriving DecidableEq, Repr

structure Cluster (ω : Type) where
  nodes : NodeID → Node ω
  heartbeats : List Heartbeat
  voteCalls : List VoteCall
  voteReplies : List (VoteCall × RequestVoteReply)
  appendCalls : List AppendCall
  appendReplies : List (AppendCall × AppendEntriesReply)
  /-- What the apply loop has collected and not yet sent, and the `lastApplied` it will set. -/
  applying : NodeID → Option (List LogEntry × Nat)
  /-- Everything sent on `applyCh`. -/
  applyCh : NodeID → List LogEntry
  submits : List Submit
  /-- Which calls have returned, by their place in `submits`. -/
  returned : List (Nat × Outcome)

/-- One lock-protected section. Calls and replies are named by their place in the network. -/
inductive Event where
  | startElection (i : NodeID)
  | requestVote (k : Nat)
  | voteReply (k : Nat)
  | sendHeartbeats (i : NodeID)
  | readHeartbeat (k : Nat)
  | replicateLog (i peer : NodeID)
  | appendEntries (k : Nat)
  | appendReply (k : Nat)
  | submitCommand (i : NodeID) (command : Command)
  | pollSubmit (k : Nat)
  | timeoutSubmit (k : Nat)
  | collectApply (i : NodeID)
  | sendApply (i : NodeID)
  | finishApply (i : NodeID)
  deriving DecidableEq, Repr

namespace Cluster

variable {ω : Type}

def init (cfg : Config ω) : Cluster ω where
  nodes := fun i => (Node.newNode i (cfg.peers i) (cfg.wal i)).start
  heartbeats := []
  voteCalls := []
  voteReplies := []
  appendCalls := []
  appendReplies := []
  applying := fun _ => none
  applyCh := fun _ => []
  submits := []
  returned := []

def setNode (w : Cluster ω) (i : NodeID) (n : Node ω) : Cluster ω :=
  { w with nodes := Function.update w.nodes i n }

variable [Journal ω] (cfg : Config ω)

/-- What an event does, or `none` where it cannot happen. -/
def act (w : Cluster ω) : Event → Option (Cluster ω)
  | .startElection i =>
      if i ∈ cfg.ids then
        let (n, args) := (w.nodes i).startElection
        let calls : List VoteCall := n.peers.map fun p => ⟨i, p, args⟩
        some { w.setNode i n with voteCalls := w.voteCalls ++ calls }
      else none
  | .requestVote k =>
      w.voteCalls[k]?.map fun call =>
        let (n, reply) := (w.nodes call.peer).handleRequestVote call.args
        { w.setNode call.peer n with voteReplies := w.voteReplies ++ [(call, reply)] }
  | .voteReply k =>
      w.voteReplies[k]?.map fun (call, reply) =>
        w.setNode call.caller
          ((w.nodes call.caller).handleVoteReply call.args.term call.peer reply)
  | .sendHeartbeats i =>
      let n := w.nodes i
      if i ∈ cfg.ids ∧ n.state = .leader then
        let tasks : List Heartbeat := n.peers.map fun p =>
          ⟨i, p, n.currentTerm, n.id, n.commitIndex⟩
        some { w with heartbeats := w.heartbeats ++ tasks }
      else none
  | .readHeartbeat k =>
      w.heartbeats[k]?.map fun hb =>
        let args := (w.nodes hb.caller).buildRequest hb.peer hb.term hb.leaderID hb.commitIndex
        { w with appendCalls := w.appendCalls ++ [⟨hb.caller, hb.peer, args⟩] }
  | .replicateLog i peer =>
      let n := w.nodes i
      let args := n.buildRequest peer n.currentTerm n.id n.commitIndex
      if i ∈ cfg.ids ∧ peer ∈ n.peers ∧ n.state = .leader ∧ args.entries ≠ [] then
        some { w with appendCalls := w.appendCalls ++ [⟨i, peer, args⟩] }
      else none
  | .appendEntries k =>
      w.appendCalls[k]?.map fun call =>
        let (n, reply) := (w.nodes call.peer).handleAppendEntries call.args
        { w.setNode call.peer n with appendReplies := w.appendReplies ++ [(call, reply)] }
  | .appendReply k =>
      w.appendReplies[k]?.map fun (call, reply) =>
        w.setNode call.caller
          ((w.nodes call.caller).handleAppendReply call.args.term call.peer call.args.entries reply)
  | .submitCommand i command =>
      if i ∈ cfg.ids then
        let (n, result) := (w.nodes i).submitCommand command
        match result with
        | .appended index term =>
            some { w.setNode i n with submits := w.submits ++ [⟨i, command, index, term⟩] }
        | _ => some (w.setNode i n)
      else none
  | .pollSubmit k =>
      match w.submits[k]? with
      | none => none
      | some s =>
          if ∃ r ∈ w.returned, r.1 = k then none
          else match (w.nodes s.node).pollSubmit s.index s.term with
            | .errNotLeader => some { w with returned := w.returned ++ [(k, .errNotLeader)] }
            | .done => some { w with returned := w.returned ++ [(k, .success)] }
            | .waiting => some w
  | .timeoutSubmit k =>
      if k < w.submits.length ∧ ¬ ∃ r ∈ w.returned, r.1 = k then
        some { w with returned := w.returned ++ [(k, .errTimeout)] }
      else none
  | .collectApply i =>
      match w.applying i with
      | some _ => none
      | none => (w.nodes i).collectApply.map fun task =>
          { w with applying := Function.update w.applying i (some task) }
  | .sendApply i =>
      match w.applying i with
      | some (e :: es, newLastApplied) => some { w with
          applying := Function.update w.applying i (some (es, newLastApplied))
          applyCh := Function.update w.applyCh i (w.applyCh i ++ [e]) }
      | _ => none
  | .finishApply i =>
      match w.applying i with
      | some ([], newLastApplied) =>
          some { w.setNode i { w.nodes i with lastApplied := newLastApplied } with
            applying := Function.update w.applying i none }
      | _ => none

/-- One step of the cluster. -/
def Step : Cluster ω → Cluster ω → Prop := Execution.Step (act cfg)

/-- A run from one state to a later one. -/
def Run : Cluster ω → Cluster ω → Prop := Execution.Run (act cfg)

def Reachable (w : Cluster ω) : Prop := Run cfg (init cfg) w

/-- The state after a list of events, if all of them can happen. -/
def exec : Cluster ω → List Event → Option (Cluster ω) := Execution.exec (act cfg)

/-- A run computed, and something observed at its end. -/
theorem exists_run (cfg : Config ω) (w : Cluster ω) (evs : List Event) (P : Cluster ω → Prop)
    (h : ∃ w' ∈ w.exec cfg evs, P w') : ∃ w', Run cfg w w' ∧ P w' := by
  obtain ⟨w', hx, hP⟩ := h
  exact ⟨w', Execution.run_of_exec hx, hP⟩

end Cluster

/-- A cluster of three, for runs with given events. -/
def abc {ω : Type} (wal : Option ω) : Config ω where
  ids := ["a", "b", "c"]
  nodup := by decide
  id_ne_empty := by decide
  peers := fun i => ["a", "b", "c"].erase i
  peers_perm := fun _ _ => List.Perm.refl _
  wal := fun _ => wal

/-- Logs that stay in one file. -/
abbrev OneFile := Wal fun _ _ => false

/-- The cluster without write-ahead logs. -/
def volatileABC : Config OneFile := abc none

/-- The cluster with empty write-ahead logs. -/
def durableABC : Config OneFile := abc (some Wal.empty)

/-- Node `b` is elected in term `1` and replicates one entry to `c`. -/
def replicateEvents : List Event :=
  [.startElection "b", .requestVote 0, .voteReply 0, .submitCommand "b" [1], .replicateLog "b" "c",
    .appendEntries 0]

end GammaFlow.Raft
