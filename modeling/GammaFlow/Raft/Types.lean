import Mathlib.Algebra.Group.Nat.Defs
import Mathlib.Data.List.Basic

/-!
# The data of the protocol

Identifiers, log entries and the two RPCs, field for field as the source declares
them. `Term` and `LogIndex` are `uint64` in the source and `Nat` here: to wrap, a
run would have to open `2^64` terms or append `2^64` entries. The one place where
the source can leave the range the other way, `nextIndex - 1`, wraps explicitly
(`predIndex`).
-/

namespace GammaFlow.Raft

abbrev NodeID := String

/-- A state machine command, `[]byte` in the source. -/
abbrev Command := List UInt8

/-- `idx - 1` on `uint64`. -/
def predIndex (idx : Nat) : Nat :=
  if idx = 0 then 2 ^ 64 - 1 else idx - 1

theorem predIndex_of_pos {idx : Nat} (h : 1 ≤ idx) : predIndex idx = idx - 1 := by
  unfold predIndex
  rw [if_neg (by omega)]

/-- The role of a node. -/
inductive State where
  | follower
  | candidate
  | leader
  deriving DecidableEq, Repr

structure LogEntry where
  term : Nat
  index : Nat
  command : Command
  deriving DecidableEq, Repr

structure RequestVoteArgs where
  term : Nat
  candidateID : NodeID
  lastLogIndex : Nat
  lastLogTerm : Nat
  deriving DecidableEq, Repr

structure RequestVoteReply where
  term : Nat
  voteGranted : Bool
  deriving DecidableEq, Repr

structure AppendEntriesArgs where
  term : Nat
  leaderID : NodeID
  prevLogIndex : Nat
  prevLogTerm : Nat
  entries : List LogEntry
  leaderCommit : Nat
  deriving DecidableEq, Repr

structure AppendEntriesReply where
  term : Nat
  success : Bool
  conflictTerm : Nat
  conflictIndex : Nat
  deriving DecidableEq, Repr

end GammaFlow.Raft
