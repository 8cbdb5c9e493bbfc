import GammaFlow.Raft.Cluster
import GammaFlow.Raft.Writes

/-!
# Requests from the wire

What arrives over gRPC is not bounded by what the sender's log can hold: every number
in it is any `uint64`. `HandleAppendEntries` compares such numbers with the length of
the log as `int`s and then uses them, unsigned, to index the slice.

This module has the receiving side with its numbers as the machine has them, where an
index out of range ends the process (`none`). It completes, and then does what the
model of the node does (`handleAppendEntries_eq_node`), for every request that is stale
or whose `PrevLogIndex` is an `int` (`completes_iff`). From `2^63` on the conversion is
negative, `Contains` says yes to everything and the slice is read outside of it.
-/

namespace GammaFlow.Raft

open GammaFlow.Storage

/-- An entry of `pb.AppendRequest`. -/
structure WireEntry where
  term : UInt64
  index : UInt64
  command : Command
  deriving DecidableEq, Repr

/-- `pb.AppendRequest`. -/
structure AppendRequest where
  term : UInt64
  leaderId : NodeID
  prevLogIndex : UInt64
  prevLogTerm : UInt64
  entries : List WireEntry
  leaderCommit : UInt64
  deriving DecidableEq, Repr

/-- `GRPCServer.AppendEntries` up to the call of the node. -/
def AppendRequest.args (req : AppendRequest) : AppendEntriesArgs where
  term := req.term.toNat
  leaderID := req.leaderId
  prevLogIndex := req.prevLogIndex.toNat
  prevLogTerm := req.prevLogTerm.toNat
  entries := req.entries.map fun e => ⟨e.term.toNat, e.index.toNat, e.command⟩
  leaderCommit := req.leaderCommit.toNat

namespace Machine

/-! ## The slice -/

/-- `int(x)` on a 64-bit platform. -/
def asInt (x : UInt64) : Int := x.toBitVec.toInt

def lastIndex (entries : List LogEntry) : UInt64 := UInt64.ofInt (entries.length - 1)

def contains (entries : List LogEntry) (idx : UInt64) : Bool := asInt idx < entries.length

/-- The slice is indexed by the number as it came. -/
def termAt (entries : List LogEntry) (idx : UInt64) : Option Nat :=
  if contains entries idx then entries[idx.toNat]?.map LogEntry.term else some 0

/-- `entries[:k]`, with no more room behind the slice than it has elements. -/
def upTo (entries : List LogEntry) (k : UInt64) : Option (List LogEntry) :=
  if k.toNat ≤ entries.length then some (entries.take k.toNat) else none

def truncateAfter (entries : List LogEntry) (idx : UInt64) : Option (List LogEntry) :=
  if asInt idx < (entries.length : Int) - 1 then upTo entries (idx + 1) else some entries

/-- The append loop from round `i` on: the slice it leaves, and what it has to persist. -/
def appendLoop (entries : List LogEntry) (prevLogIndex : UInt64) (i : Nat) :
    List LogEntry → Option (List LogEntry × List LogEntry)
  | [] => some (entries, [])
  | entry :: rest =>
      let idx := prevLogIndex + UInt64.ofNat i + 1
      if contains entries idx then
        (termAt entries idx).bind fun term =>
          if term ≠ entry.term then
            (truncateAfter entries (idx - 1)).map fun kept =>
              (kept ++ (entry :: rest), entry :: rest)
          else appendLoop entries prevLogIndex (i + 1) rest
      else some (entries ++ (entry :: rest), entry :: rest)

/-! ## The section -/

/-- How the section ends: the node but for its log, the log's slice, and the reply. -/
structure Outcome (ω : Type) where
  node : Node ω
  entries : List LogEntry
  reply : AppendEntriesReply

variable {ω : Type} [Journal ω]

/-- The append loop, and what follows it. -/
def append (n : Node ω) (req : AppendRequest) (reply : AppendEntriesReply) : Option (Outcome ω) :=
  (appendLoop n.log.entries req.prevLogIndex 0 req.args.entries).map fun (entries, new) =>
    let n := n.persistEntries new
    let lastIdx := lastIndex entries
    let newCommit := if lastIdx < req.leaderCommit then lastIdx else req.leaderCommit
    ⟨if req.leaderCommit.toNat > n.commitIndex then { n with commitIndex := newCommit.toNat } else n,
      entries, { reply with success := true }⟩

def checkAndAppend (n : Node ω) (req : AppendRequest) : Option (Outcome ω) :=
  let reply : AppendEntriesReply :=
    { term := n.currentTerm, success := false, conflictTerm := 0, conflictIndex := 0 }
  if req.prevLogIndex > 0 then
    if ¬ contains n.log.entries req.prevLogIndex then
      some ⟨n, n.log.entries,
        { reply with conflictIndex := (lastIndex n.log.entries + 1).toNat, conflictTerm := 0 }⟩
    else
      (termAt n.log.entries req.prevLogIndex).bind fun term =>
        if term ≠ req.prevLogTerm.toNat then
          (termAt n.log.entries req.prevLogIndex).map fun conflictTerm =>
            ⟨n, n.log.entries, { reply with
              conflictTerm := conflictTerm
              conflictIndex := n.log.findFirstIndexOfTerm conflictTerm }⟩
        else append n req reply
  else append n req reply

def handleAppendEntries (n : Node ω) (req : AppendRequest) : Option (Outcome ω) :=
  if req.term.toNat < n.currentTerm then
    some ⟨n, n.log.entries,
      { term := n.currentTerm, success := false, conflictTerm := 0, conflictIndex := 0 }⟩
  else checkAndAppend (n.acceptLeader req.args) req

end Machine

/-! ## Numbers -/

namespace Machine

theorem toNat_ite_lt (a b : UInt64) :
    (if a < b then a else b).toNat = if a.toNat < b.toNat then a.toNat else b.toNat := by
  simp only [UInt64.lt_iff_toNat_lt]
  split <;> rfl

theorem asInt_of_lt {x : UInt64} (h : x.toNat < 2 ^ 63) : asInt x = x.toNat := by
  unfold asInt
  rw [BitVec.toInt_eq_toNat_of_lt (by rw [UInt64.toNat_toBitVec]; omega), UInt64.toNat_toBitVec]

theorem asInt_neg {x : UInt64} (h : 2 ^ 63 ≤ x.toNat) : asInt x < 0 := by
  unfold asInt
  rw [BitVec.toInt_eq_toNat_cond, UInt64.toNat_toBitVec, if_neg (by omega)]
  have := x.toNat_lt
  omega

variable {entries : List LogEntry} {idx : UInt64}

theorem contains_of_lt (h : idx.toNat < 2 ^ 63) :
    contains entries idx = decide (idx.toNat < entries.length) := by
  unfold contains
  rw [asInt_of_lt h]
  norm_cast

theorem contains_of_ge (h : 2 ^ 63 ≤ idx.toNat) : contains entries idx = true := by
  have hneg := asInt_neg h
  unfold contains
  rw [decide_eq_true_iff]
  omega

/-- **`Contains` is right about an index exactly if the index is an `int`.** -/
theorem contains_iff_lt (hlen : entries.length < 2 ^ 63) (idx : UInt64) :
    (contains entries idx = true ↔ idx.toNat < entries.length) ↔ idx.toNat < 2 ^ 63 := by
  constructor
  · intro h
    by_contra hge
    have := h.mp (contains_of_ge (by omega))
    omega
  · intro h
    rw [contains_of_lt h, decide_eq_true_iff]

theorem termAt_of_lt (log : RaftLog) (h : idx.toNat < 2 ^ 63) :
    termAt log.entries idx = some (log.termAt idx.toNat) := by
  unfold termAt RaftLog.termAt RaftLog.contains
  rw [contains_of_lt h]
  by_cases hin : idx.toNat < log.entries.length
  · rw [if_pos (by simpa using hin), if_pos (by simpa using hin), List.getElem?_eq_getElem hin]
    rfl
  · rw [if_neg (by simpa using hin), if_neg (by simpa using hin)]

/-- Reading beyond the `int`s is reading beyond the slice. -/
theorem termAt_of_ge (hlen : entries.length < 2 ^ 63) (h : 2 ^ 63 ≤ idx.toNat) :
    termAt entries idx = none := by
  unfold termAt
  rw [if_pos (contains_of_ge h), List.getElem?_eq_none (by omega)]
  rfl

theorem truncateAfter_of_lt (log : RaftLog) (h : idx.toNat + 1 < log.entries.length)
    (hlen : log.entries.length < 2 ^ 63) :
    truncateAfter log.entries idx = some (log.truncateAfter idx.toNat).entries := by
  have hsucc : (idx + 1).toNat = idx.toNat + 1 := by
    rw [UInt64.toNat_add, UInt64.toNat_one]
    omega
  unfold truncateAfter upTo RaftLog.truncateAfter
  rw [asInt_of_lt (by omega), if_pos (by omega), hsucc, if_pos (by omega)]
  dsimp only
  rw [if_pos (by omega)]

theorem lastIndex_toNat (log : RaftLog) (hlen : log.entries.length < 2 ^ 63) :
    (lastIndex log.entries).toNat = log.lastIndex := by
  have hpos := log.length_entries
  have hmod : (((log.entries.length : Int) - 1) % 2 ^ 64).toNat = log.entries.length - 1 := by omega
  unfold lastIndex RaftLog.lastIndex UInt64.ofInt
  rw [hmod, UInt64.toNat_ofNat_of_lt' (by show _ < 2 ^ 64; omega)]

/-! ## The loop -/

variable {ω : Type} [Journal ω]

/-- From inside the log, the loop stays inside of it and does what the model's loop does. -/
theorem appendLoop_eq {n : Node ω} {prev : UInt64} (hlen : n.log.entries.length < 2 ^ 63) :
    ∀ (es : List LogEntry) (i : Nat), prev.toNat + i < n.log.entries.length →
    ∃ new, appendLoop n.log.entries prev i es
        = some ((n.appendNew (prev.toNat + i + 1) es).log.entries, new) ∧
      n.appendNew (prev.toNat + i + 1) es =
        { n.persistEntries new with log := (n.appendNew (prev.toNat + i + 1) es).log } := by
  intro es
  induction es with
  | nil => intro i _; exact ⟨[], rfl, rfl⟩
  | cons e es ih =>
      intro i hi
      have hidx : (prev + UInt64.ofNat i + 1).toNat = prev.toNat + i + 1 := by
        rw [UInt64.toNat_add, UInt64.toNat_add, UInt64.toNat_one,
          UInt64.toNat_ofNat_of_lt' (by show _ < 2 ^ 64; omega)]
        omega
      have hpred : (prev + UInt64.ofNat i + 1 - 1).toNat = prev.toNat + i := by
        rw [UInt64.add_sub_cancel, UInt64.toNat_add,
          UInt64.toNat_ofNat_of_lt' (by show _ < 2 ^ 64; omega)]
        omega
      rw [appendLoop, Node.appendNew]
      dsimp only
      rw [contains_of_lt (by omega), termAt_of_lt n.log (by omega), hidx]
      by_cases hin : prev.toNat + i + 1 < n.log.entries.length
      · have hc : n.log.contains (prev.toNat + i + 1) = true := by
          unfold RaftLog.contains
          exact decide_eq_true hin
        rw [if_pos (decide_eq_true hin), if_pos hc, Option.bind_some]
        by_cases hterm : n.log.termAt (prev.toNat + i + 1) ≠ e.term
        · rw [if_pos hterm, if_pos hterm, truncateAfter_of_lt n.log (by omega) hlen, hpred,
            Node.persistEntries_node]
          refine ⟨e :: es, rfl, ?_⟩
          rw [Node.persistEntries_node]
        · rw [if_neg hterm, if_neg hterm]
          have hnext := ih (i + 1) (by omega)
          exact hnext
      · have hc : ¬ n.log.contains (prev.toNat + i + 1) = true := by
          unfold RaftLog.contains
          rw [decide_eq_true_iff]
          exact hin
        rw [if_neg (by rw [decide_eq_true_iff]; exact hin), if_neg hc, Node.persistEntries_node]
        refine ⟨e :: es, rfl, ?_⟩
        rw [Node.persistEntries_node]

/-! ## The section -/

theorem append_isSome {n : Node ω} (hlen : n.log.entries.length < 2 ^ 63) {req : AppendRequest}
    (hin : req.prevLogIndex.toNat < n.log.entries.length) (reply : AppendEntriesReply) :
    (append n req reply).isSome = true := by
  obtain ⟨new, hloop, _⟩ := appendLoop_eq hlen req.args.entries 0 hin
  unfold append
  rw [hloop]
  rfl

theorem checkAndAppend_isSome {n : Node ω} (hlen : n.log.entries.length < 2 ^ 63)
    (req : AppendRequest) :
    (checkAndAppend n req).isSome = true ↔ req.prevLogIndex.toNat < 2 ^ 63 := by
  have hpos := n.log.length_entries
  unfold checkAndAppend
  dsimp only
  by_cases hprev : req.prevLogIndex.toNat < 2 ^ 63
  · refine ⟨fun _ => hprev, fun _ => ?_⟩
    rw [contains_of_lt hprev, termAt_of_lt n.log hprev, Option.bind_some]
    split
    · split
      · rfl
      · rename_i hc
        have hin : req.prevLogIndex.toNat < n.log.entries.length := by simpa using hc
        split
        · rfl
        · exact append_isSome hlen hin _
    · rename_i h0
      have hzero : req.prevLogIndex.toNat = 0 := by
        rw [gt_iff_lt, UInt64.lt_iff_toNat_lt, UInt64.toNat_zero] at h0
        omega
      exact append_isSome hlen (by omega) _
  · -- `Contains` says yes, and `TermAt` reads outside of the slice
    have hge : 2 ^ 63 ≤ req.prevLogIndex.toNat := by omega
    have hpos : req.prevLogIndex > 0 := by
      rw [gt_iff_lt, UInt64.lt_iff_toNat_lt, UInt64.toNat_zero]
      omega
    rw [if_pos hpos, contains_of_ge hge, if_neg (by simp), termAt_of_ge hlen hge]
    exact ⟨fun h => absurd h (by simp), fun h => absurd h hprev⟩

theorem length_mergeLog_le (es : List LogEntry) : ∀ (log : RaftLog) (idx : Nat),
    (Node.mergeLog log idx es).entries.length ≤ log.entries.length + es.length := by
  induction es with
  | nil => intro log idx; exact Nat.le_refl _
  | cons e es ih =>
      intro log idx
      rw [Node.mergeLog]
      split
      · split
        · have hle : (log.truncateAfter (idx - 1)).entries.length ≤ log.entries.length := by
            rw [RaftLog.length_entries, RaftLog.length_entries, RaftLog.body_truncateAfter,
              List.length_take]
            omega
          show ((log.truncateAfter (idx - 1)).entries ++ (e :: es)).length ≤ _
          rw [List.length_append]
          omega
        · have := ih log (idx + 1)
          rw [List.length_cons]
          omega
      · show (log.entries ++ (e :: es)).length ≤ _
        rw [List.length_append]

/-- What the machine leaves of a node and a reply that the model computes. -/
def Outcome.of (log : RaftLog) (result : Node ω × AppendEntriesReply) : Outcome ω :=
  ⟨{ result.1 with log := log }, result.1.log.entries, result.2⟩

theorem append_eq {n : Node ω} {req : AppendRequest}
    (hroom : n.log.entries.length + req.entries.length < 2 ^ 63)
    (hin : req.prevLogIndex.toNat < n.log.entries.length) (reply : AppendEntriesReply) :
    append n req reply = some (Outcome.of n.log
      ((n.appendNew (req.args.prevLogIndex + 1) req.args.entries).updateCommit req.args.leaderCommit,
        { reply with success := true })) := by
  obtain ⟨new, hloop, hnode⟩ := appendLoop_eq (by omega) req.args.entries 0 hin
  have hlen : (n.appendNew (req.args.prevLogIndex + 1) req.args.entries).log.entries.length
      < 2 ^ 63 := by
    obtain ⟨w, he⟩ := Node.appendNew_eq req.args.entries n (req.args.prevLogIndex + 1)
    have hle := length_mergeLog_le req.args.entries n.log (req.args.prevLogIndex + 1)
    have hargs : req.args.entries.length = req.entries.length := List.length_map _
    rw [he]
    dsimp only
    omega
  have hlast := lastIndex_toNat _ hlen
  rw [Node.persistEntries_node] at hnode
  obtain ⟨log, hm⟩ : ∃ log, n.appendNew (req.args.prevLogIndex + 1) req.args.entries =
      { n with wal := n.wal.map (Journal.appendAll · (new.map LogEntry.record)), log := log } :=
    ⟨_, hnode⟩
  have hlog : log = (n.appendNew (req.args.prevLogIndex + 1) req.args.entries).log := by rw [hm]
  have hmin : (if lastIndex log.entries < req.leaderCommit then lastIndex log.entries
      else req.leaderCommit).toNat =
      if log.lastIndex < req.leaderCommit.toNat then log.lastIndex else req.leaderCommit.toNat := by
    rw [hlog, ← hlast]
    exact toNat_ite_lt _ _
  unfold append
  rw [hloop, Option.map_some]
  dsimp only
  rw [show (n.appendNew (req.prevLogIndex.toNat + 0 + 1) req.args.entries).log = log from hlog.symm,
    hmin, hm, Node.persistEntries_node]
  unfold Outcome.of Node.updateCommit
  dsimp only
  by_cases hc : req.leaderCommit.toNat > n.commitIndex
  · rw [if_pos hc, if_pos (show req.args.leaderCommit > n.commitIndex from hc)]
    rfl
  · rw [if_neg hc, if_neg (show ¬ req.args.leaderCommit > n.commitIndex from hc)]

/--
**The section on the machine is the section of the model**, whenever the request's
`PrevLogIndex` is an `int` and the log has room for its entries.
-/
theorem checkAndAppend_eq {n : Node ω} {req : AppendRequest}
    (hroom : n.log.entries.length + req.entries.length < 2 ^ 63)
    (hprev : req.prevLogIndex.toNat < 2 ^ 63) :
    checkAndAppend n req = some (Outcome.of n.log (n.checkAndAppend req.args)) := by
  have hpos := n.log.length_entries
  have hcontains : contains n.log.entries req.prevLogIndex = n.log.contains req.args.prevLogIndex :=
    contains_of_lt hprev
  have hzero : req.prevLogIndex > 0 ↔ req.args.prevLogIndex > 0 := by
    rw [gt_iff_lt, UInt64.lt_iff_toNat_lt, UInt64.toNat_zero]
    rfl
  have hlast : (lastIndex n.log.entries + 1).toNat = n.log.lastIndex + 1 := by
    have := lastIndex_toNat n.log (by omega)
    rw [UInt64.toNat_add, this, UInt64.toNat_one, RaftLog.lastIndex_eq]
    omega
  unfold checkAndAppend Node.checkAndAppend
  dsimp only
  rw [hcontains, termAt_of_lt n.log hprev, Option.bind_some, Option.map_some, hlast]
  by_cases h0 : req.args.prevLogIndex > 0
  · rw [if_pos (hzero.mpr h0)]
    by_cases hc : n.log.contains req.args.prevLogIndex = true
    · have hshort : ¬ (req.args.prevLogIndex > 0 ∧
          ¬ n.log.contains req.args.prevLogIndex = true) := fun h => h.2 hc
      rw [if_neg (not_not.mpr hc), if_neg hshort]
      by_cases ht : n.log.termAt req.prevLogIndex.toNat ≠ req.prevLogTerm.toNat
      · have hmiss : req.args.prevLogIndex > 0 ∧
            n.log.termAt req.args.prevLogIndex ≠ req.args.prevLogTerm := ⟨h0, ht⟩
        rw [if_pos ht, if_pos hmiss]
        rfl
      · have hin : req.prevLogIndex.toNat < n.log.entries.length := by
          unfold RaftLog.contains at hc
          exact of_decide_eq_true hc
        have hmatch : ¬ (req.args.prevLogIndex > 0 ∧
            n.log.termAt req.args.prevLogIndex ≠ req.args.prevLogTerm) := fun h => ht h.2
        rw [if_neg ht, if_neg hmatch]
        exact append_eq hroom hin _
    · rw [if_pos hc, if_pos (show _ ∧ ¬ n.log.contains _ = true from ⟨h0, hc⟩)]
      rfl
  · have hin : req.prevLogIndex.toNat < n.log.entries.length := by
      have : req.prevLogIndex.toNat = 0 := Nat.eq_zero_of_not_pos h0
      omega
    rw [if_neg (mt hzero.mp h0), if_neg fun h => h0 h.1, if_neg fun h => h0 h.1]
    exact append_eq hroom hin _

end Machine

/-- A node whose log is in memory: the length of a slice is an `int`. -/
structure InMemory (ω : Type) where
  node : Node ω
  len_lt : node.log.entries.length < 2 ^ 63

variable {ω : Type} [Journal ω]

theorem acceptLeader_log {n : Node ω} {args : AppendEntriesArgs} (h : ¬ args.term < n.currentTerm) :
    (n.acceptLeader args).log = n.log := by
  obtain ⟨v, vr, rt, d, he⟩ := n.acceptLeader_eq args (Nat.le_of_not_lt h)
  rw [he]

/-- **Where the handler completes, it does what the model of the node does.** -/
theorem handleAppendEntries_eq_node (m : InMemory ω) {req : AppendRequest}
    (hroom : m.node.log.entries.length + req.entries.length < 2 ^ 63)
    (hprev : req.prevLogIndex.toNat < 2 ^ 63) :
    Machine.handleAppendEntries m.node req =
      some (Machine.Outcome.of m.node.log (m.node.handleAppendEntries req.args)) := by
  unfold Machine.handleAppendEntries Node.handleAppendEntries
  by_cases hlt : req.args.term < m.node.currentTerm
  · rw [if_pos hlt, if_pos (show req.term.toNat < _ from hlt)]
    rfl
  · rw [if_neg hlt, if_neg (show ¬ req.term.toNat < _ from hlt)]
    have hlog := acceptLeader_log hlt
    rw [Machine.checkAndAppend_eq (by rw [hlog]; exact hroom) hprev, hlog]

/--
**Which requests a node survives.** Whatever the numbers in a request, the handler
completes exactly if the request is stale or its `PrevLogIndex` is below `2^63`; and
exactly below `2^63` does `Contains` say whether the log has an entry at an index.
-/
theorem completes_iff (m : InMemory ω) (req : AppendRequest) :
    ((Machine.handleAppendEntries m.node req).isSome = true ↔
      req.term.toNat < m.node.currentTerm ∨ req.prevLogIndex.toNat < 2 ^ 63) ∧
    ∀ idx : UInt64, (Machine.contains m.node.log.entries idx = true ↔
      idx.toNat < m.node.log.entries.length) ↔ idx.toNat < 2 ^ 63 := by
  refine ⟨?_, Machine.contains_iff_lt m.len_lt⟩
  unfold Machine.handleAppendEntries
  by_cases hlt : req.term.toNat < m.node.currentTerm
  · rw [if_pos hlt]
    exact ⟨fun _ => Or.inl hlt, fun _ => rfl⟩
  · have hlog : (m.node.acceptLeader req.args).log = m.node.log := acceptLeader_log hlt
    rw [if_neg hlt, Machine.checkAndAppend_isSome (by rw [hlog]; exact m.len_lt)]
    exact ⟨Or.inr, fun h => h.resolve_left hlt⟩

/-- A request of term `1` that starts at index `2^63`. -/
def beyondInt : AppendRequest := ⟨1, "b", 9223372036854775808, 0, [], 0⟩

/-- It ends a node that has just been started. -/
theorem crash_beyondInt :
    (Machine.handleAppendEntries ((Cluster.init volatileABC).nodes "a") beyondInt).isSome = false ∧
    Machine.contains ((Cluster.init volatileABC).nodes "a").log.entries
      beyondInt.prevLogIndex = true ∧
    ((Cluster.init volatileABC).nodes "a").log.entries.length = 1 := by
  decide +kernel

end GammaFlow.Raft
