import Mathlib.Algebra.GroupWithZero.Nat
import Mathlib.Algebra.Order.BigOperators.Group.List
import Mathlib.Algebra.Order.Group.Nat
import Mathlib.Data.Nat.Log
import GammaFlow.Raft.Apply
import GammaFlow.Raft.Lifetime
import GammaFlow.Raft.Provenance
import GammaFlow.Raft.Wire

/-!
# Numbers on the wire

Terms and indices are unbounded in the model of the cluster, and 64 bits wide in the messages
that `GRPCTransport` and `GRPCServer` make of its requests and replies. Every step makes every
number larger by at most one (`numbers_step`), so for `2^62` steps nothing is lost on the way,
no index is beyond what an `int` holds, and a call over the wire does what the model
does without one, or is refused (`rpc_transparent`).

gRPC itself is taken as it comes: it delivers a message as it was sent, unless the message is
longer than the server receives. No option of the server raises that limit from its default
of 4 MiB, and no sender splits a request, so the entries of a request may exceed it.
-/

namespace GammaFlow.Raft

open GammaFlow.Storage

/-! ## Messages -/

/-- `pb.VoteRequest`. -/
structure VoteRequest where
  term : UInt64
  candidateId : NodeID
  lastLogIndex : UInt64
  lastLogTerm : UInt64
  deriving DecidableEq, Repr

/-- `pb.VoteResponse`. -/
structure VoteResponse where
  term : UInt64
  voteGranted : Bool
  deriving DecidableEq, Repr

/-- `pb.AppendResponse`. -/
structure AppendResponse where
  term : UInt64
  success : Bool
  conflictTerm : UInt64
  conflictIndex : UInt64
  deriving DecidableEq, Repr

/-- The request that `SendRequestVote` makes. -/
def sendRequestVote (args : RequestVoteArgs) : VoteRequest where
  term := UInt64.ofNat args.term
  candidateId := args.candidateID
  lastLogIndex := UInt64.ofNat args.lastLogIndex
  lastLogTerm := UInt64.ofNat args.lastLogTerm

/-- `GRPCServer.RequestVote` up to the call of the node. -/
def VoteRequest.args (req : VoteRequest) : RequestVoteArgs where
  term := req.term.toNat
  candidateID := req.candidateId
  lastLogIndex := req.lastLogIndex.toNat
  lastLogTerm := req.lastLogTerm.toNat

/-- What it makes of the node's reply. -/
def voteResponse (reply : RequestVoteReply) : VoteResponse where
  term := UInt64.ofNat reply.term
  voteGranted := reply.voteGranted

/-- What `SendRequestVote` returns. -/
def VoteResponse.reply (resp : VoteResponse) : RequestVoteReply where
  term := resp.term.toNat
  voteGranted := resp.voteGranted

/-- The request that `SendAppendEntries` makes. -/
def sendAppendEntries (args : AppendEntriesArgs) : AppendRequest where
  term := UInt64.ofNat args.term
  leaderId := args.leaderID
  prevLogIndex := UInt64.ofNat args.prevLogIndex
  prevLogTerm := UInt64.ofNat args.prevLogTerm
  entries := args.entries.map fun e => ⟨UInt64.ofNat e.term, UInt64.ofNat e.index, e.command⟩
  leaderCommit := UInt64.ofNat args.leaderCommit

/-- What `GRPCServer.AppendEntries` makes of the node's reply. -/
def appendResponse (reply : AppendEntriesReply) : AppendResponse where
  term := UInt64.ofNat reply.term
  success := reply.success
  conflictTerm := UInt64.ofNat reply.conflictTerm
  conflictIndex := UInt64.ofNat reply.conflictIndex

/-- What `SendAppendEntries` returns. -/
def AppendResponse.reply (resp : AppendResponse) : AppendEntriesReply where
  term := resp.term.toNat
  success := resp.success
  conflictTerm := resp.conflictTerm.toNat
  conflictIndex := resp.conflictIndex.toNat

/-! ## Sizes -/

/-- The bytes of a base-128 varint. -/
def varintSize (n : Nat) : Nat := n.log2 / 7 + 1

/-- A `uint64` field with its tag, which is left out if it is zero. -/
def uintSize (x : UInt64) : Nat := if x = 0 then 0 else 1 + varintSize x.toNat

/-- A field of `n` bytes, with its tag and its length. -/
def fieldSize (n : Nat) : Nat := 1 + varintSize n + n

/-- A `string` or `bytes` field, which is left out if it is empty. -/
def bytesSize (n : Nat) : Nat := if n = 0 then 0 else fieldSize n

/-- `proto.Size`. -/
def VoteRequest.size (req : VoteRequest) : Nat :=
  uintSize req.term + bytesSize req.candidateId.utf8ByteSize + uintSize req.lastLogIndex +
    uintSize req.lastLogTerm

def WireEntry.size (e : WireEntry) : Nat :=
  uintSize e.term + uintSize e.index + bytesSize e.command.length

def AppendRequest.size (req : AppendRequest) : Nat :=
  uintSize req.term + bytesSize req.leaderId.utf8ByteSize + uintSize req.prevLogIndex +
    uintSize req.prevLogTerm + (req.entries.map fun e => fieldSize e.size).sum +
    uintSize req.leaderCommit

theorem fieldSize_mono {m n : Nat} (h : m ≤ n) : fieldSize m ≤ fieldSize n := by
  have hlog : m.log2 ≤ n.log2 := by
    rw [Nat.log2_eq_log_two, Nat.log2_eq_log_two]
    exact Nat.log_mono_right h
  have hdiv := Nat.div_le_div_right (c := 7) hlog
  unfold fieldSize varintSize
  omega

theorem uintSize_le (x : UInt64) : uintSize x ≤ 11 := by
  unfold uintSize varintSize
  split
  · exact Nat.zero_le _
  · rename_i hx
    have hne : x.toNat ≠ 0 := fun h => hx (UInt64.toNat_inj.mp h)
    have hlog : x.toNat.log2 < 64 := (Nat.log2_lt hne).mpr x.toNat_lt
    omega

/-- What the field of an entry takes at most. -/
def maxEntrySize (command : Command) : Nat := fieldSize (22 + bytesSize command.length)

/-- What a request of `id` with entries of these commands takes at most, and one without. -/
def maxRequestSize (id : NodeID) (commands : List Command) : Nat :=
  44 + bytesSize id.utf8ByteSize + (commands.map maxEntrySize).sum

theorem maxRequestSize_mono (id : NodeID) {commands commands' : List Command}
    (h : commands.Sublist commands') : maxRequestSize id commands ≤ maxRequestSize id commands' :=
  Nat.add_le_add_left ((h.map maxEntrySize).sum_le_sum fun _ _ => Nat.zero_le _) _

theorem size_sendRequestVote_le (args : RequestVoteArgs) (commands : List Command) :
    (sendRequestVote args).size ≤ maxRequestSize args.candidateID commands := by
  have hterm := uintSize_le (sendRequestVote args).term
  have hindex := uintSize_le (sendRequestVote args).lastLogIndex
  have hlast := uintSize_le (sendRequestVote args).lastLogTerm
  have hid : (sendRequestVote args).candidateId = args.candidateID := rfl
  unfold VoteRequest.size maxRequestSize
  rw [hid]
  omega

theorem size_sendAppendEntries_le (args : AppendEntriesArgs) : (sendAppendEntries args).size ≤
    maxRequestSize args.leaderID (args.entries.map LogEntry.command) := by
  have hterm := uintSize_le (sendAppendEntries args).term
  have hprev := uintSize_le (sendAppendEntries args).prevLogIndex
  have hprevTerm := uintSize_le (sendAppendEntries args).prevLogTerm
  have hcommit := uintSize_le (sendAppendEntries args).leaderCommit
  have hid : (sendAppendEntries args).leaderId = args.leaderID := rfl
  have hentry : ∀ e : WireEntry, fieldSize e.size ≤ maxEntrySize e.command := by
    intro e
    have ht := uintSize_le e.term
    have hi := uintSize_le e.index
    refine fieldSize_mono ?_
    unfold WireEntry.size
    omega
  have hentries : ((sendAppendEntries args).entries.map fun e => fieldSize e.size).sum ≤
      ((args.entries.map LogEntry.command).map maxEntrySize).sum := by
    unfold sendAppendEntries
    dsimp only
    rw [List.map_map, List.map_map]
    exact List.sum_le_sum fun e _ => hentry ⟨UInt64.ofNat e.term, UInt64.ofNat e.index, e.command⟩
  unfold AppendRequest.size maxRequestSize
  rw [hid]
  omega

/-- What a server receives at most if no option says otherwise. -/
def defaultMaxReceiveSize : Nat := 4 * 1024 * 1024

/-! ## From one end to the other and back -/

/-- What becomes of a call whose request reaches the server. -/
inductive Rpc (α : Type) where
  /-- The request is too long: the handler is not called, and the caller gets an error. -/
  | refused
  /-- The handler ends the process. -/
  | crashed
  | answered (a : α)

variable {ω : Type}

/-- A call of `RequestVote` to a server that receives up to `limit` bytes. -/
def requestVoteRPC [Journal ω] (limit : Nat) (n : Node ω) (args : RequestVoteArgs) :
    Rpc (Node ω × RequestVoteReply) :=
  let req := sendRequestVote args
  if limit < req.size then .refused
  else
    let (n, reply) := n.handleRequestVote req.args
    .answered (n, (voteResponse reply).reply)

/-- A call of `AppendEntries`, with the handler as the machine has it. -/
def appendEntriesRPC [Journal ω] (limit : Nat) (n : Node ω) (args : AppendEntriesArgs) :
    Rpc (Machine.Outcome ω) :=
  let req := sendAppendEntries args
  if limit < req.size then .refused
  else
    match Machine.handleAppendEntries n req with
    | none => .crashed
    | some out => .answered { out with reply := (appendResponse out.reply).reply }

/-- The commands alone are no longer than the request. -/
theorem commands_le_size (args : AppendEntriesArgs) :
    (args.entries.map fun e => e.command.length).sum ≤ (sendAppendEntries args).size := by
  have hentry : ∀ e : WireEntry, e.command.length ≤ fieldSize e.size := by
    intro e
    unfold fieldSize WireEntry.size bytesSize fieldSize
    split <;> omega
  have hsum : (args.entries.map fun e => e.command.length).sum ≤
      ((sendAppendEntries args).entries.map fun e => fieldSize e.size).sum := by
    unfold sendAppendEntries
    dsimp only
    rw [List.map_map]
    exact List.sum_le_sum fun e _ => hentry ⟨UInt64.ofNat e.term, UInt64.ofNat e.index, e.command⟩
  unfold AppendRequest.size
  omega

/-! ## Bounds -/

/-- Terms and indices that the node may send are no larger than `k`. -/
structure Node.Below (k : Nat) (n : Node ω) : Prop where
  term : n.currentTerm ≤ k
  next : ∀ p, n.nextIndex p ≤ k + 1

structure RequestVoteArgs.Below (k : Nat) (args : RequestVoteArgs) : Prop where
  term : args.term ≤ k
  lastLogIndex : args.lastLogIndex ≤ k
  lastLogTerm : args.lastLogTerm ≤ k

structure AppendEntriesArgs.Below (k : Nat) (args : AppendEntriesArgs) : Prop where
  term : args.term ≤ k
  prevLogIndex : args.prevLogIndex ≤ k
  prevLogTerm : args.prevLogTerm ≤ k
  length : args.entries.length ≤ k
  leaderCommit : args.leaderCommit ≤ k

structure AppendEntriesReply.Below (k : Nat) (r : AppendEntriesReply) : Prop where
  term : r.term ≤ k
  conflictTerm : r.conflictTerm ≤ k
  conflictIndex : r.conflictIndex ≤ k

structure LogEntry.Below (k : Nat) (e : LogEntry) : Prop where
  term : e.term ≤ k
  index : e.index ≤ k

/-- No number in the cluster is larger than `k`. -/
structure Numbers (k : Nat) (w : Cluster ω) : Prop where
  nodes : ∀ i, (w.nodes i).Below k
  entries : Authored (LogEntry.Below k) w
  heartbeats : ∀ hb ∈ w.heartbeats, hb.term ≤ k ∧ hb.commitIndex ≤ k
  voteCalls : ∀ c ∈ w.voteCalls, c.args.Below k
  voteReplies : ∀ cr ∈ w.voteReplies, cr.2.term ≤ k
  appendCalls : ∀ c ∈ w.appendCalls, c.args.Below k
  appendReplies : ∀ cr ∈ w.appendReplies, cr.1 ∈ w.appendCalls ∧ cr.2.Below k

namespace Node

variable {n : Node ω} {k : Nat}

theorem Below.mono (h : n.Below k) : n.Below (k + 1) :=
  ⟨Nat.le_succ_of_le h.term, fun p => Nat.le_succ_of_le (h.next p)⟩

theorem Below.congr {n' : Node ω} (h : n.Below k) (ht : n'.currentTerm ≤ k)
    (hn : n'.nextIndex = n.nextIndex) : n'.Below k :=
  ⟨ht, fun p => by rw [hn]; exact h.next p⟩

variable [Journal ω]

theorem Below.becomeFollowerLocked (h : n.Below k) {t : Nat} (ht : t ≤ k) :
    (n.becomeFollowerLocked t).Below k := by
  obtain ⟨rt, d, he⟩ := n.becomeFollowerLocked_eq t
  rw [he]
  refine h.congr ?_ rfl
  dsimp only
  split
  · exact ht
  · exact h.term

theorem Below.seeTerm (h : n.Below k) {t : Nat} (ht : t ≤ k) : (n.seeTerm t).Below k := by
  unfold Node.seeTerm
  split
  · exact h.becomeFollowerLocked ht
  · exact h

theorem Below.startElection (h : n.Below k) : n.startElection.1.Below (k + 1) := by
  obtain ⟨rt, d, he, _⟩ := n.startElection_eq
  rw [he]
  exact h.mono.congr (Nat.succ_le_succ h.term) rfl

theorem Below.handleRequestVote (h : n.Below k) {args : RequestVoteArgs} (ht : args.term ≤ k) :
    (n.handleRequestVote args).1.Below k := by
  obtain ⟨v, rt, d, he⟩ := n.handleRequestVote_eq args
  rw [he]
  exact (h.seeTerm ht).congr (h.seeTerm ht).term rfl

theorem Below.handleVoteReply (h : n.Below k) (hlen : n.log.body.length ≤ k) {t : Nat} {p : NodeID}
    {r : RequestVoteReply} (ht : r.term ≤ k) : (n.handleVoteReply t p r).Below k := by
  have hst := n.voteReplied t p r
  generalize n.handleVoteReply t p r = n' at hst ⊢
  cases hst with
  | idle _ => exact h
  | stepDown _ _ _ => exact h.becomeFollowerLocked ht
  | counted _ _ _ _ _ _ => exact h.congr h.term rfl
  | elected _ _ _ _ _ _ =>
      refine ⟨h.term, fun q => ?_⟩
      show (if q ∈ n.peers then n.log.lastIndex + 1 else n.nextIndex q) ≤ k + 1
      split
      · rw [RaftLog.lastIndex_eq]; omega
      · exact h.next q

theorem Below.handleAppendEntries (h : n.Below k) {args : AppendEntriesArgs} (ht : args.term ≤ k) :
    (n.handleAppendEntries args).1.Below k := by
  have hst := n.appendHandled args
  generalize (n.handleAppendEntries args).1 = n' at hst ⊢
  generalize (n.handleAppendEntries args).2 = r at hst
  cases hst with
  | stale _ => exact h
  | refused _ _ _ _ _ _ => exact h.congr ht rfl
  | accepted _ _ _ _ _ _ => exact h.congr ht rfl

theorem Below.handleAppendReply (h : n.Below k) (hlen : n.log.body.length ≤ k) {t : Nat}
    {p : NodeID} {es : List LogEntry} {r : AppendEntriesReply} (hes : ∀ e ∈ es, e.index ≤ k)
    (hr : r.Below k) : (n.handleAppendReply t p es r).Below k := by
  unfold Node.handleAppendReply
  split
  · exact h
  split
  · exact h.becomeFollowerLocked hr.term
  split
  · split
    · exact h
    · rename_i last hlast
      have hindex := hes last (List.mem_of_getLast? hlast)
      obtain ⟨next, counts, c, _, he⟩ := n.ackedLocked_eq p (last.index + 1)
      refine ⟨by rw [he]; exact h.term, fun q => ?_⟩
      rcases n.ackedLocked_next p q (last.index + 1) with hq | hq
      · rw [hq]; exact h.next q
      · rw [hq]; omega
  · rw [n.handleConflictLocked_eq p r]
    refine ⟨h.term, fun q => ?_⟩
    dsimp only
    split
    · have hfind := n.log.findLastFrom_le r.conflictTerm n.log.lastIndex
      have hconf := hr.conflictIndex
      have hnext := h.next p
      rw [RaftLog.lastIndex_eq] at hfind
      unfold conflictNext
      rw [RaftLog.lastIndex_eq]
      split
      · split <;> omega
      · split
        · omega
        · split <;> omega
    · exact h.next q

theorem Below.submitCommand (h : n.Below k) (command : Command) :
    (n.submitCommand command).1.Below k := by
  rcases n.submitCommand_cases command with ⟨_, he⟩ | ⟨_, d, he⟩
  · rw [he]; exact h
  · rw [he]; exact h.congr h.term rfl

end Node

/-! ## Steps -/

variable [Journal ω] {cfg : Config ω} {w w' : Cluster ω} {ev : Event} {k : Nat}

theorem termAt_le {l : RaftLog} (h : ∀ e ∈ l.body, e.Below k) (idx : Nat) : l.termAt idx ≤ k := by
  rw [RaftLog.termAt_eq, RaftLog.termIn]
  split
  · exact Nat.zero_le k
  · cases hget : l.body[idx - 1]? with
    | none => exact Nat.zero_le k
    | some e => exact (h e (List.mem_of_getElem? hget)).term

theorem lastTerm_le {l : RaftLog} (h : ∀ e ∈ l.body, e.Below k) : l.lastTerm ≤ k := by
  rw [RaftLog.lastTerm_eq]
  cases hlast : l.body.getLast? with
  | none => exact Nat.zero_le k
  | some e => exact (h e (List.mem_of_getLast? hlast)).term

/-- A log is as long as its last index says. -/
theorem Numbers.length_le (h : Numbers k w) (hw : Cluster.Reachable cfg w) (i : NodeID) :
    (w.nodes i).log.body.length ≤ k := by
  rcases Nat.eq_zero_or_pos (w.nodes i).log.body.length with h0 | hpos
  · omega
  have hget := List.getElem?_eq_getElem (show (w.nodes i).log.body.length - 1 <
    (w.nodes i).log.body.length by omega)
  have hindex := entry_index hw i (k := (w.nodes i).log.body.length)
    (by rw [RaftLog.getElem?_entries _ hpos]; exact hget)
  rw [← hindex]
  exact (h.entries.logs i _ (List.mem_of_getElem? hget)).index

theorem Numbers.commit_le (h : Numbers k w) (hw : Cluster.Reachable cfg w) (i : NodeID) :
    (w.nodes i).commitIndex ≤ k := Nat.le_trans (commitIndex_le hw i) (h.length_le hw i)

theorem numbers_nodes (h : Numbers k w) (hw : Cluster.Reachable cfg w)
    (hs : w.act cfg ev = some w') (i : NodeID) : (w'.nodes i).Below (k + 1) := by
  have hn := h.nodes i
  have hlen := h.length_le hw i
  rcases act_nodes hs i with heq | hst
  · rw [heq]; exact hn.mono
  generalize w'.nodes i = n' at hst ⊢
  cases hst with
  | startElection _ => exact hn.startElection
  | requestVote j c hc _ =>
      exact (hn.handleRequestVote (h.voteCalls c (List.mem_of_getElem? hc)).term).mono
  | voteReply j c r hr _ =>
      exact (hn.handleVoteReply hlen (h.voteReplies (c, r) (List.mem_of_getElem? hr))).mono
  | appendEntries j c hc _ =>
      exact (hn.handleAppendEntries (h.appendCalls c (List.mem_of_getElem? hc)).term).mono
  | appendReply j c r hr _ =>
      obtain ⟨hc, hbelow⟩ := h.appendReplies (c, r) (List.mem_of_getElem? hr)
      exact (hn.handleAppendReply hlen (fun e he => (h.entries.calls c hc e he).index) hbelow).mono
  | submitCommand command _ => exact (hn.submitCommand command).mono
  | finishApply m _ => exact ⟨hn.mono.term, hn.mono.next⟩

theorem LogEntry.Below.mono {e : LogEntry} (h : e.Below k) : e.Below (k + 1) :=
  ⟨Nat.le_succ_of_le h.term, Nat.le_succ_of_le h.index⟩

theorem RequestVoteArgs.Below.mono {args : RequestVoteArgs} (h : args.Below k) :
    args.Below (k + 1) :=
  ⟨Nat.le_succ_of_le h.term, Nat.le_succ_of_le h.lastLogIndex, Nat.le_succ_of_le h.lastLogTerm⟩

theorem AppendEntriesArgs.Below.mono {args : AppendEntriesArgs} (h : args.Below k) :
    args.Below (k + 1) :=
  ⟨Nat.le_succ_of_le h.term, Nat.le_succ_of_le h.prevLogIndex, Nat.le_succ_of_le h.prevLogTerm,
    Nat.le_succ_of_le h.length, Nat.le_succ_of_le h.leaderCommit⟩

theorem AppendEntriesReply.Below.mono {r : AppendEntriesReply} (h : r.Below k) : r.Below (k + 1) :=
  ⟨Nat.le_succ_of_le h.term, Nat.le_succ_of_le h.conflictTerm, Nat.le_succ_of_le h.conflictIndex⟩

/-- What a leader, or a goroutine it has left behind, sends. -/
theorem Numbers.buildRequest (h : Numbers k w) (hw : Cluster.Reachable cfg w) {i p : NodeID}
    {t cm : Nat} {l : NodeID} (hnext : 1 ≤ (w.nodes i).nextIndex p) (ht : t ≤ k) (hcm : cm ≤ k) :
    ((w.nodes i).buildRequest p t l cm).Below k := by
  have hle := (h.nodes i).next p
  refine ⟨ht, ?_, termAt_le (h.entries.logs i) _, ?_, hcm⟩
  · show predIndex ((w.nodes i).nextIndex p) ≤ k
    rw [predIndex_of_pos hnext]
    omega
  · show ((w.nodes i).log.entriesFrom ((w.nodes i).nextIndex p)).length ≤ k
    have := h.length_le hw i
    rw [RaftLog.entriesFrom_eq _ hnext, List.length_drop]
    omega

/-- What a node answers. -/
theorem handleAppendEntries_reply_below {n : Node ω} {args : AppendEntriesArgs} (hn : n.Below k)
    (hlog : ∀ e ∈ n.log.body, e.Below k) (ha : args.Below k) :
    (n.handleAppendEntries args).2.Below k := by
  refine ⟨?_, ?_, Nat.le_trans (n.handleAppendEntries_conflict_le args) ha.prevLogIndex⟩
  · rw [n.handleAppendEntries_reply_term]
    exact (hn.handleAppendEntries ha.term).term
  · have hst := n.appendHandled args
    generalize (n.handleAppendEntries args).1 = n' at hst
    generalize (n.handleAppendEntries args).2 = r at hst ⊢
    cases hst with
    | stale _ => exact Nat.zero_le k
    | refused _ _ _ _ _ _ =>
        unfold Node.conflictHint
        split
        · exact Nat.zero_le k
        · exact termAt_le hlog _
    | accepted _ _ _ _ _ _ => exact Nat.zero_le k

theorem next_pos_of_heartbeat (hw : Cluster.Reachable cfg w) {hb : Heartbeat}
    (hmem : hb ∈ w.heartbeats) : 1 ≤ (w.nodes hb.caller).nextIndex hb.peer := by
  obtain ⟨S, hS⟩ := sim_reachable hw
  refine ((inRange_reachable hw).heartbeats hb hmem).next_pos hb.peer ?_
  rw [(hS.nodes hb.caller).peers]
  exact (hS.heartbeats hb hmem).peer

/-- **A step makes no number larger by more than one.** -/
theorem numbers_step (h : Numbers k w) (hw : Cluster.Reachable cfg w)
    (hs : w.act cfg ev = some w') : Numbers (k + 1) w' := by
  refine ⟨numbers_nodes h hw hs, ?_, ?_, ?_, ?_, ?_, ?_⟩
  · refine authored_step hw (h.entries.mono fun e he => he.mono) hs ?_
    intro i command _ _
    have hlen := h.length_le hw i
    refine ⟨Nat.le_succ_of_le (h.nodes i).term, ?_⟩
    dsimp only
    rw [RaftLog.lastIndex_eq]
    omega
  · intro hb hmem
    rcases mem_heartbeats hs hmem with hmem | ⟨i, p, _, _, _, rfl⟩
    · have := h.heartbeats hb hmem
      omega
    · exact ⟨Nat.le_succ_of_le (h.nodes i).term, Nat.le_succ_of_le (h.commit_le hw i)⟩
  · intro c hc
    rcases act_voteCalls hs with heq | ⟨i, _, _, heq⟩
    · rw [heq] at hc; exact (h.voteCalls c hc).mono
    rw [heq] at hc
    rcases List.mem_append.mp hc with hc | hc
    · exact (h.voteCalls c hc).mono
    · obtain ⟨p, _, rfl⟩ := List.mem_map.mp hc
      obtain ⟨_, _, _, hargs⟩ := (w.nodes i).startElection_eq
      have hlen := h.length_le hw i
      rw [hargs]
      refine ⟨Nat.succ_le_succ (h.nodes i).term, ?_, ?_⟩
      · dsimp only
        rw [RaftLog.lastIndex_eq]
        omega
      · exact Nat.le_succ_of_le (lastTerm_le (h.entries.logs i))
  · intro cr hcr
    rcases act_voteReplies hs with heq | ⟨j, c, _, hc, _, heq⟩
    · rw [heq] at hcr; exact Nat.le_succ_of_le (h.voteReplies cr hcr)
    rw [heq] at hcr
    rcases List.mem_append.mp hcr with hcr | hcr
    · exact Nat.le_succ_of_le (h.voteReplies cr hcr)
    · rw [List.mem_singleton.mp hcr]
      dsimp only
      rw [Node.handleRequestVote_reply_term]
      exact Nat.le_succ_of_le ((h.nodes c.peer).handleRequestVote
        (h.voteCalls c (List.mem_of_getElem? hc)).term).term
  · intro c hc
    rcases mem_appendCalls hs hc with hc | ⟨j, hb, _, hj, rfl⟩ | ⟨i, p, _, hl, hp, rfl⟩
    · exact (h.appendCalls c hc).mono
    · have hmem := List.mem_of_getElem? hj
      obtain ⟨ht, hcm⟩ := h.heartbeats hb hmem
      exact (h.buildRequest hw (next_pos_of_heartbeat hw hmem) ht hcm).mono
    · exact (h.buildRequest hw ((HasLed.now hw hl).next_pos p hp) (h.nodes i).term
        (h.commit_le hw i)).mono
  · have hkept : w.appendCalls ⊆ w'.appendCalls := by
      rcases act_appendCalls (inRange_reachable hw) hw hs with heq | ⟨_, _, _, _, _, heq, _⟩
      · rw [heq]; exact List.Subset.refl _
      · rw [heq]; exact List.subset_append_left _ _
    intro cr hcr
    rcases mem_appendReplies hs hcr with hcr | ⟨c, hc, rfl⟩
    · obtain ⟨hmem, hbelow⟩ := h.appendReplies cr hcr
      exact ⟨hkept hmem, hbelow.mono⟩
    · exact ⟨hkept hc, (handleAppendEntries_reply_below (h.nodes c.peer) (h.entries.logs c.peer)
        (h.appendCalls c hc)).mono⟩

omit [Journal ω] in
theorem numbers_init : Numbers 0 (Cluster.init cfg) :=
  ⟨fun _ => ⟨Nat.le_refl 0, fun _ => Nat.zero_le 1⟩, authored_init _,
    fun hb h => absurd h (by simp [Cluster.init]), fun c h => absurd h (by simp [Cluster.init]),
    fun cr h => absurd h (by simp [Cluster.init]), fun c h => absurd h (by simp [Cluster.init]),
    fun cr h => absurd h (by simp [Cluster.init])⟩

/-- After a run, no number is larger than the run is long. -/
theorem numbers_exec {evs : List Event} (hx : (Cluster.init cfg).exec cfg evs = some w) :
    Numbers evs.length w := by
  refine Execution.exec_invariant (I := fun done => Numbers done.length) numbers_init ?_ hx
  intro done w₁ ev w₂ hdone h hs
  rw [List.length_append]
  exact numbers_step h (Execution.run_of_exec hdone) hs

/-! ## Calls -/

theorem toNat_ofNat_of_le {a : Nat} (h : a ≤ k) (hk : k < 2 ^ 62) : (UInt64.ofNat a).toNat = a :=
  UInt64.toNat_ofNat_of_lt' (by show a < 2 ^ 64; omega)

theorem args_sendRequestVote {args : RequestVoteArgs} (h : args.Below k) (hk : k < 2 ^ 62) :
    (sendRequestVote args).args = args := by
  unfold sendRequestVote VoteRequest.args
  dsimp only
  rw [toNat_ofNat_of_le h.term hk, toNat_ofNat_of_le h.lastLogIndex hk,
    toNat_ofNat_of_le h.lastLogTerm hk]

theorem args_sendAppendEntries {args : AppendEntriesArgs} (h : args.Below k)
    (hes : ∀ e ∈ args.entries, e.Below k) (hk : k < 2 ^ 62) :
    (sendAppendEntries args).args = args := by
  have hentries : (args.entries.map fun e => (⟨UInt64.ofNat e.term, UInt64.ofNat e.index,
      e.command⟩ : WireEntry)).map (fun e => (⟨e.term.toNat, e.index.toNat, e.command⟩ : LogEntry)) =
      args.entries := by
    rw [List.map_map]
    refine (List.map_congr_left fun e he => ?_).trans (List.map_id _)
    have := hes e he
    simp only [Function.comp_def, toNat_ofNat_of_le this.term hk,
      toNat_ofNat_of_le this.index hk, id]
  unfold sendAppendEntries AppendRequest.args
  dsimp only
  rw [hentries, toNat_ofNat_of_le h.term hk, toNat_ofNat_of_le h.prevLogIndex hk,
    toNat_ofNat_of_le h.prevLogTerm hk, toNat_ofNat_of_le h.leaderCommit hk]

theorem reply_voteResponse {r : RequestVoteReply} (h : r.term ≤ k) (hk : k < 2 ^ 62) :
    (voteResponse r).reply = r := by
  unfold voteResponse VoteResponse.reply
  dsimp only
  rw [toNat_ofNat_of_le h hk]

theorem reply_appendResponse {r : AppendEntriesReply} (h : r.Below k) (hk : k < 2 ^ 62) :
    (appendResponse r).reply = r := by
  unfold appendResponse AppendResponse.reply
  dsimp only
  rw [toNat_ofNat_of_le h.term hk, toNat_ofNat_of_le h.conflictTerm hk,
    toNat_ofNat_of_le h.conflictIndex hk]

/--
**Calls over the wire do what the model does without one.** In a run of fewer than `2^62`
steps, take any request that was ever sent, and the node it is for in any state that the
run leaves it in. If the request is no longer than the server receives, then encoded,
delivered, handled in machine arithmetic, answered and decoded, the call changes the node
and answers as the handler of the model does with the arguments themselves; in particular
it does not end the process. If it is longer, it is refused, and so it is if its commands
alone are.
-/
theorem rpc_transparent {evs : List Event} (hx : (Cluster.init cfg).exec cfg evs = some w)
    (hlen : evs.length < 2 ^ 62) (limit : Nat) :
    (∀ c ∈ w.voteCalls, requestVoteRPC limit (w.nodes c.peer) c.args =
      if limit < (sendRequestVote c.args).size then .refused
      else .answered ((w.nodes c.peer).handleRequestVote c.args)) ∧
    (∀ c ∈ w.appendCalls, appendEntriesRPC limit (w.nodes c.peer) c.args =
      if limit < (sendAppendEntries c.args).size then .refused
      else .answered (Machine.Outcome.of (w.nodes c.peer).log
        ((w.nodes c.peer).handleAppendEntries c.args))) ∧
    ∀ c ∈ w.appendCalls, limit < (c.args.entries.map fun e => e.command.length).sum →
      appendEntriesRPC limit (w.nodes c.peer) c.args = .refused := by
  have hw : Cluster.Reachable cfg w := Execution.run_of_exec hx
  have h := numbers_exec hx
  refine ⟨?_, ?_, ?_⟩
  · intro c hc
    have hbelow := h.voteCalls c hc
    unfold requestVoteRPC
    dsimp only
    rw [args_sendRequestVote hbelow hlen, reply_voteResponse ?_ hlen]
    rw [Node.handleRequestVote_reply_term]
    exact ((h.nodes c.peer).handleRequestVote hbelow.term).term
  · intro c hc
    have hbelow := h.appendCalls c hc
    have hargs := args_sendAppendEntries hbelow (h.entries.calls c hc) hlen
    have hlog := h.length_le hw c.peer
    have hroom : (w.nodes c.peer).log.entries.length + (sendAppendEntries c.args).entries.length
        < 2 ^ 63 := by
      have := hbelow.length
      rw [RaftLog.length_entries, sendAppendEntries, List.length_map]
      omega
    have hprev : (sendAppendEntries c.args).prevLogIndex.toNat < 2 ^ 63 := by
      rw [show (sendAppendEntries c.args).prevLogIndex.toNat = c.args.prevLogIndex from
        toNat_ofNat_of_le hbelow.prevLogIndex hlen]
      have := hbelow.prevLogIndex
      omega
    unfold appendEntriesRPC
    dsimp only
    rw [handleAppendEntries_eq_node ⟨w.nodes c.peer, by omega⟩ hroom hprev, hargs]
    unfold Machine.Outcome.of
    dsimp only
    rw [reply_appendResponse (handleAppendEntries_reply_below (h.nodes c.peer)
      (h.entries.logs c.peer) hbelow) hlen]
  · intro c _ hlong
    unfold appendEntriesRPC
    exact if_pos (Nat.lt_of_lt_of_le hlong (commands_le_size c.args))

/-- The requests of an election and of one replication, with the limit as it is by default. -/
theorem rpc_transparent_abc : ∃ w,
    (Cluster.init volatileABC).exec volatileABC replicateEvents = some w ∧
    w.voteCalls.length = 2 ∧ w.appendCalls.length = 1 ∧
    (∀ c ∈ w.voteCalls, requestVoteRPC defaultMaxReceiveSize (w.nodes c.peer) c.args =
      .answered ((w.nodes c.peer).handleRequestVote c.args)) ∧
    ∀ c ∈ w.appendCalls, appendEntriesRPC defaultMaxReceiveSize (w.nodes c.peer) c.args =
      .answered (Machine.Outcome.of (w.nodes c.peer).log
        ((w.nodes c.peer).handleAppendEntries c.args)) := by
  obtain ⟨w, hx, hvotes, happends, hsmall, hsmall'⟩ :
      ∃ w ∈ (Cluster.init volatileABC).exec volatileABC replicateEvents,
      w.voteCalls.length = 2 ∧ w.appendCalls.length = 1 ∧
      (∀ c ∈ w.voteCalls, ¬ defaultMaxReceiveSize < (sendRequestVote c.args).size) ∧
      ∀ c ∈ w.appendCalls, ¬ defaultMaxReceiveSize < (sendAppendEntries c.args).size := by
    decide +kernel
  obtain ⟨hv, ha, _⟩ := rpc_transparent hx (by decide) defaultMaxReceiveSize
  refine ⟨w, hx, hvotes, happends, ?_, ?_⟩
  · intro c hc
    rw [hv c hc, if_neg (hsmall c hc)]
  · intro c hc
    rw [ha c hc, if_neg (hsmall' c hc)]

end GammaFlow.Raft
