import Mathlib.Data.List.Sort
import GammaFlow.Raft.Log
import GammaFlow.Storage.Record

/-!
# One node

The lock-protected sections of `node.go` and `replication.go`, each a function on
the node's state. What a section hands to another goroutine (a reply, the
arguments of an RPC, the entries to apply) is part of its result.

`Runtime` is the part of a node that other goroutines can be parked on: its timers
and the contexts of its replication goroutines. They live on a heap, because the
source replaces the heartbeat timer on every election while its event loop may
still be waiting on the old one.

A write-ahead log error is logged and otherwise ignored everywhere except in
`submitCommand`, so `persist` returns the flag and its callers drop it.
-/

namespace GammaFlow.Raft

open GammaFlow.Storage

/-- A `time.Timer`: running, expired with its tick not yet received, or neither. -/
inductive Timer where
  | armed
  | fired
  | idle
  deriving DecidableEq, Repr

/-- `Stop`: no tick is delivered any more. The flag is what the call returns. -/
def Timer.stop : Timer → Timer × Bool
  | .armed => (.idle, true)
  | .fired => (.idle, false)
  | .idle => (.idle, false)

/-- A receive from the timer's channel that does not block. -/
def Timer.drain : Timer → Timer
  | .armed => .armed
  | .fired => .idle
  | .idle => .idle

def Timer.reset : Timer → Timer := fun _ => .armed

structure Runtime where
  electionTimer : Option Nat
  heartbeatTimer : Option Nat
  replicateCancel : Option Nat
  /-- Every timer created so far; the fields above point into it. -/
  timers : List Timer
  /-- Every replication context created so far, and whether it was cancelled. -/
  contexts : List Bool
  deriving DecidableEq, Repr

namespace Runtime

def empty : Runtime := ⟨none, none, none, [], []⟩

/-- Apply `f` to the timer a field points to, if it is set. -/
def onTimer (rt : Runtime) (t : Option Nat) (f : Timer → Timer) : Runtime :=
  match t with
  | none => rt
  | some t => { rt with timers := rt.timers.modify t f }

def resetElectionTimerLocked (rt : Runtime) : Runtime :=
  match rt.electionTimer with
  | none => { rt with electionTimer := some rt.timers.length, timers := rt.timers ++ [Timer.armed] }
  | some t => rt.onTimer (some t) fun tm =>
      let (tm, active) := tm.stop
      (if active then tm else tm.drain).reset

def stopElectionTimer (rt : Runtime) : Runtime :=
  rt.onTimer rt.electionTimer fun tm => tm.stop.1

def stopHeartbeatTimer (rt : Runtime) : Runtime :=
  rt.onTimer rt.heartbeatTimer fun tm => tm.stop.1

def resetHeartbeatTimer (rt : Runtime) : Runtime :=
  rt.onTimer rt.heartbeatTimer Timer.reset

def newHeartbeatTimer (rt : Runtime) : Runtime :=
  { rt with heartbeatTimer := some rt.timers.length, timers := rt.timers ++ [Timer.armed] }

def newContext (rt : Runtime) : Runtime :=
  { rt with replicateCancel := some rt.contexts.length, contexts := rt.contexts ++ [false] }

/-- Call and clear `replicateCancel`. -/
def cancelReplication (rt : Runtime) : Runtime :=
  match rt.replicateCancel with
  | none => rt
  | some c => { rt with replicateCancel := none, contexts := rt.contexts.modify c fun _ => true }

/-- What stepping down from leadership does to timers and goroutines. -/
def stopLeading (rt : Runtime) : Runtime := rt.stopHeartbeatTimer.cancelReplication

end Runtime

/-- `Node`, less its dependencies and metrics. -/
structure Node (ω : Type) where
  id : NodeID
  peers : List NodeID
  currentTerm : Nat
  votedFor : NodeID
  log : RaftLog
  state : State
  commitIndex : Nat
  lastApplied : Nat
  leaderID : NodeID
  nextIndex : NodeID → Nat
  matchIndex : NodeID → Nat
  votes : Nat
  /-- The keys of the map, all of whose values are `true`. -/
  votesReceived : List NodeID
  wal : Option ω
  rt : Runtime

namespace Node

variable {ω : Type}

def newNode (id : NodeID) (peers : List NodeID) (wal : Option ω) : Node ω where
  id := id
  peers := peers
  currentTerm := 0
  votedFor := ""
  log := RaftLog.newRaftLog
  state := .follower
  commitIndex := 0
  lastApplied := 0
  leaderID := ""
  nextIndex := fun _ => 0
  matchIndex := fun _ => 0
  votes := 0
  votesReceived := []
  wal := wal
  rt := Runtime.empty

/-- The part of `Start` that runs before the event loops do. -/
def start (n : Node ω) : Node ω := { n with rt := n.rt.resetElectionTimerLocked }

/-- `Replay`, given what the write-ahead log returned. -/
def replay (n : Node ω) (r : Replayed) : Node ω :=
  let n := { n with currentTerm := r.term, votedFor := r.votedFor }
  if r.entries.length > 0 then
    let logEntries : List LogEntry := r.entries.map fun e => ⟨e.term, e.index, e.command⟩
    { n with log := n.log.restoreEntries logEntries }
  else n

section Journaled

variable [Journal ω]

/-- `n.wal.Append`, if there is a log at all. -/
def persist (n : Node ω) (r : WalRecord) : Node ω × Bool :=
  match n.wal with
  | none => (n, true)
  | some w =>
      let (w, ok) := Journal.append w r
      ({ n with wal := some w }, ok)

/-- `PersistEntry` for each entry in turn. -/
def persistEntries (n : Node ω) (es : List LogEntry) : Node ω :=
  es.foldl (fun n e => (n.persist (.entry ⟨e.index, e.term, e.command⟩)).1) n

/-! ## Elections -/

/-- `startElection` up to the release of the lock, with the arguments it will send. -/
def startElection (n : Node ω) : Node ω × RequestVoteArgs :=
  let n := { n with
    currentTerm := n.currentTerm + 1
    state := .candidate
    votedFor := n.id
    leaderID := ""
    votes := 1
    votesReceived := [n.id] }
  let n := (n.persist (.term n.currentTerm)).1
  let n := (n.persist (.vote n.votedFor n.currentTerm)).1
  let n := { n with rt := n.rt.resetElectionTimerLocked }
  (n, { term := n.currentTerm
        candidateID := n.id
        lastLogIndex := n.log.lastIndex
        lastLogTerm := n.log.lastTerm })

def becomeLeaderLocked (n : Node ω) : Node ω :=
  let n := { n with state := .leader, leaderID := n.id, rt := n.rt.stopElectionTimer }
  let lastIdx := n.log.lastIndex + 1
  let n := { n with
    nextIndex := fun p => if p ∈ n.peers then lastIdx else n.nextIndex p
    matchIndex := fun p => if p ∈ n.peers then 0 else n.matchIndex p }
  { n with rt := n.rt.newHeartbeatTimer.newContext }

def becomeFollowerLocked (n : Node ω) (term : Nat) : Node ω :=
  let n := if term > n.currentTerm then
      ({ n with currentTerm := term, votedFor := "" }.persist (.term term)).1
    else n
  let wasLeader := n.state = .leader
  let n := { n with state := .follower, votes := 0, votesReceived := [] }
  let n := if wasLeader then { n with rt := n.rt.stopLeading } else n
  { n with rt := n.rt.resetElectionTimerLocked }

/-- The votes a candidate needs: `(len(n.peers)+1)/2 + 1`. -/
def majority (n : Node ω) : Nat := (n.peers.length + 1) / 2 + 1

/-- The goroutine of `startElection` for peer `p`, once the reply is there. -/
def handleVoteReply (n : Node ω) (term : Nat) (p : NodeID) (reply : RequestVoteReply) : Node ω :=
  if n.currentTerm ≠ term ∨ n.state ≠ .candidate then n
  else if reply.term > n.currentTerm then n.becomeFollowerLocked reply.term
  else if reply.voteGranted then
    if p ∈ n.votesReceived then n
    else
      let n := { n with votesReceived := n.votesReceived ++ [p], votes := n.votes + 1 }
      if n.votes ≥ n.majority then n.becomeLeaderLocked else n
  else n

def isLogUpToDate (n : Node ω) (lastTerm lastIndex : Nat) : Bool :=
  let ourLastTerm := n.log.lastTerm
  let ourLastIndex := n.log.lastIndex
  if lastTerm ≠ ourLastTerm then lastTerm > ourLastTerm else lastIndex ≥ ourLastIndex

/-- `HandleRequestVote` after the term was dealt with. -/
def castVote (n : Node ω) (args : RequestVoteArgs) (reply : RequestVoteReply) :
    Node ω × RequestVoteReply :=
  let canVote := n.votedFor = "" ∨ n.votedFor = args.candidateID
  let logOK := n.isLogUpToDate args.lastLogTerm args.lastLogIndex
  if canVote ∧ logOK then
    let n := { n with votedFor := args.candidateID, rt := n.rt.resetElectionTimerLocked }
    ((n.persist (.vote n.votedFor n.currentTerm)).1, { reply with voteGranted := true })
  else (n, reply)

def handleRequestVote (n : Node ω) (args : RequestVoteArgs) : Node ω × RequestVoteReply :=
  let reply : RequestVoteReply := { term := n.currentTerm, voteGranted := false }
  let n' := if args.term > n.currentTerm then n.becomeFollowerLocked args.term else n
  let reply := if args.term > n.currentTerm then { reply with term := n'.currentTerm } else reply
  if args.term < n'.currentTerm then (n', reply) else n'.castVote args reply

/-! ## Replication, receiving side -/

/-- The append loop from index `idx` on, with the entries that remain. -/
def appendNew (n : Node ω) (idx : Nat) : List LogEntry → Node ω
  | [] => n
  | entry :: rest =>
      if n.log.contains idx then
        if n.log.termAt idx ≠ entry.term then
          ({ n with log := (n.log.truncateAfter (idx - 1)).append (entry :: rest) }).persistEntries
            (entry :: rest)
        else n.appendNew (idx + 1) rest
      else ({ n with log := n.log.append (entry :: rest) }).persistEntries (entry :: rest)

def updateCommit (n : Node ω) (leaderCommit : Nat) : Node ω :=
  if leaderCommit > n.commitIndex then
    { n with commitIndex :=
        if n.log.lastIndex < leaderCommit then n.log.lastIndex else leaderCommit }
  else n

/-- `HandleAppendEntries` up to the consistency check: the sender is a valid leader. -/
def acceptLeader (n : Node ω) (args : AppendEntriesArgs) : Node ω :=
  let n := if args.term > n.currentTerm then n.becomeFollowerLocked args.term else n
  let n := if n.state ≠ .follower then
      { n with state := .follower, rt := n.rt.stopLeading }
    else n
  { n with leaderID := args.leaderID, rt := n.rt.resetElectionTimerLocked }

/-- The consistency check and what follows it. -/
def checkAndAppend (n : Node ω) (args : AppendEntriesArgs) : Node ω × AppendEntriesReply :=
  let reply : AppendEntriesReply :=
    { term := n.currentTerm, success := false, conflictTerm := 0, conflictIndex := 0 }
  if args.prevLogIndex > 0 ∧ ¬ n.log.contains args.prevLogIndex then
    (n, { reply with conflictIndex := n.log.lastIndex + 1, conflictTerm := 0 })
  else if args.prevLogIndex > 0 ∧ n.log.termAt args.prevLogIndex ≠ args.prevLogTerm then
    let conflictTerm := n.log.termAt args.prevLogIndex
    (n, { reply with
      conflictTerm := conflictTerm
      conflictIndex := n.log.findFirstIndexOfTerm conflictTerm })
  else
    let n := n.appendNew (args.prevLogIndex + 1) args.entries
    (n.updateCommit args.leaderCommit, { reply with success := true })

def handleAppendEntries (n : Node ω) (args : AppendEntriesArgs) : Node ω × AppendEntriesReply :=
  if args.term < n.currentTerm then
    (n, { term := n.currentTerm, success := false, conflictTerm := 0, conflictIndex := 0 })
  else (n.acceptLeader args).checkAndAppend args

/-! ## Replication, sending side -/

def advanceCommitIndexLocked (n : Node ω) : Node ω :=
  let found := n.log.lastIndex :: n.peers.map n.matchIndex
  let sorted := found.insertionSort (· ≥ ·)
  let majority := (n.peers.length + 1) / 2
  match sorted[majority]? with
  | none => n
  | some candidateCommit =>
      if candidateCommit > n.commitIndex ∧ n.log.contains candidateCommit ∧
          n.log.termAt candidateCommit = n.currentTerm then
        { n with commitIndex := candidateCommit }
      else n

def handleConflictLocked (n : Node ω) (peer : NodeID) (reply : AppendEntriesReply) : Node ω :=
  let setNext (idx : Nat) : Node ω :=
    { n with nextIndex := fun p => if p = peer then idx else n.nextIndex p }
  if reply.conflictTerm > 0 then
    let lastIdxOfTerm := n.log.findLastFrom reply.conflictTerm n.log.lastIndex
    if lastIdxOfTerm > 0 then setNext (lastIdxOfTerm + 1) else setNext reply.conflictIndex
  else if reply.conflictIndex > 0 then setNext reply.conflictIndex
  else if n.nextIndex peer > 1 then setNext (n.nextIndex peer - 1)
  else n

/-- A successful reply: the peer's log reaches up to `newNextIdx - 1`. -/
def ackedLocked (n : Node ω) (peer : NodeID) (newNextIdx : Nat) : Node ω :=
  let n := if newNextIdx > n.nextIndex peer then
      { n with nextIndex := fun p => if p = peer then newNextIdx else n.nextIndex p }
    else n
  let newMatchIdx := newNextIdx - 1
  let n := if newMatchIdx > n.matchIndex peer then
      { n with matchIndex := fun p => if p = peer then newMatchIdx else n.matchIndex p }
    else n
  n.advanceCommitIndexLocked

/--
The reply sections of `sendHeartbeats` and `replicateLog`. They differ only in that
`replicateLog` never sends an empty request, so it does not ask for entries before
it looks at the last one.
-/
def handleAppendReply (n : Node ω) (term : Nat) (peer : NodeID) (entries : List LogEntry)
    (reply : AppendEntriesReply) : Node ω :=
  if n.state ≠ .leader ∨ n.currentTerm ≠ term then n
  else if reply.term > n.currentTerm then n.becomeFollowerLocked reply.term
  else if reply.success then
    match entries.getLast? with
    | none => n
    | some last => n.ackedLocked peer (last.index + 1)
  else n.handleConflictLocked peer reply

/--
The request for `peer`, as either sender builds it from the log it finds. No leader has a
`nextIndex` of 0 (`HasLed.next_pos`), at which `TermAt` would panic.
-/
def buildRequest (n : Node ω) (peer : NodeID) (term : Nat) (leaderID : NodeID)
    (commitIndex : Nat) : AppendEntriesArgs where
  term := term
  leaderID := leaderID
  prevLogIndex := predIndex (n.nextIndex peer)
  prevLogTerm := n.log.termAt (predIndex (n.nextIndex peer))
  entries := n.log.entriesFrom (n.nextIndex peer)
  leaderCommit := commitIndex

/-! ## Commands and their application -/

/-- How a `SubmitCommand` section ends. -/
inductive SubmitResult where
  | errNotLeader
  | errPersist
  | appended (index term : Nat)
  deriving DecidableEq, Repr

/-- `SubmitCommand` up to the release of the lock. -/
def submitCommand (n : Node ω) (command : Command) : Node ω × SubmitResult :=
  if n.state ≠ .leader then (n, .errNotLeader)
  else
    let entry : LogEntry :=
      { term := n.currentTerm, index := n.log.lastIndex + 1, command := command }
    let n := { n with log := n.log.append [entry] }
    let (n, ok) := n.persist (.entry ⟨entry.index, entry.term, entry.command⟩)
    if ok then (n, .appended entry.index entry.term) else (n, .errPersist)

end Journaled

/-- One round of the polling loop of `SubmitCommand`. -/
inductive PollResult where
  | errNotLeader
  | done
  | waiting
  deriving DecidableEq, Repr

def pollSubmit (n : Node ω) (index term : Nat) : PollResult :=
  if n.state ≠ .leader ∨ n.currentTerm ≠ term then .errNotLeader
  else if n.lastApplied ≥ index then .done
  else .waiting

/-- The section of `applyLoop` that collects entries, with the `lastApplied` it will set. -/
def collectApply (n : Node ω) : Option (List LogEntry × Nat) :=
  if n.lastApplied ≥ n.commitIndex then none
  else some (n.log.entriesBetween (n.lastApplied + 1) n.commitIndex, n.commitIndex)

def isLeader (n : Node ω) : Bool := n.state = .leader

end Node

end GammaFlow.Raft
