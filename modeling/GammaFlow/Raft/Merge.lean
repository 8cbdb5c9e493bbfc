import GammaFlow.Raft.NodeSpec
import GammaFlow.Lib.Consensus.Matching

/-!
# The append loop is a graft

A request that ships the log `L` from some index on, merged into a log that passed
the consistency check, leaves exactly what the abstract protocol calls a graft:
the follower's log where it already contains `L`, and `L` where it does not.

This is where log matching is used. The loop compares terms only; that equal terms
mean equal entries, and equal entries below, is what `Matching` says.
-/

namespace GammaFlow.Raft

open GammaFlow.Consensus (graft graft_eq_left graft_eq_right)
open RaftLog

instance : Consensus.Entry LogEntry where
  term := LogEntry.term
  index := LogEntry.index

/-- Equal terms at one place mean equal logs up to there. -/
def Matching (m L : List LogEntry) : Prop :=
  ∀ k, 1 ≤ k → k ≤ m.length → k ≤ L.length → termIn m k = termIn L k → m.take k = L.take k

/-- The request carries `L` from its `prevLogIndex` to the end. -/
structure Ships (L : List LogEntry) (args : AppendEntriesArgs) : Prop where
  prev_le : args.prevLogIndex ≤ L.length
  prev_term : args.prevLogTerm = termIn L args.prevLogIndex
  entries : args.entries = L.drop args.prevLogIndex

/-- Nothing reads a term `0` inside a log: a request that carries one cannot be consistent. -/
structure Dud (args : AppendEntriesArgs) : Prop where
  prev_pos : 0 < args.prevLogIndex
  prev_term : args.prevLogTerm = 0

/-- Logs that agree up to `k` and split there are not prefixes of one another. -/
theorem not_prefix_of_term {m L : List LogEntry} {k : Nat} (hL : k ≤ L.length)
    (hne : termIn m k ≠ termIn L k) : ¬ L <+: m := by
  intro h
  exact hne (termIn_eq_of_le h hL).symm

/-- **The append loop, started where the logs agree, grafts.** -/
theorem body_mergeLog {L : List LogEntry} : ∀ (es : List LogEntry) (log : RaftLog) (k : Nat),
    Matching log.body L → L.drop k = es → k ≤ L.length → k ≤ log.body.length →
    log.body.take k = L.take k → (Node.mergeLog log (k + 1) es).body = graft L log.body := by
  intro es
  induction es with
  | nil =>
      intro log k hmatch hes hkL hkm htake
      -- the request is exhausted: all of `L` was found in place
      rw [Node.mergeLog]
      have hk : k = L.length := by
        have := List.drop_eq_nil_iff.mp hes
        omega
      rw [graft_eq_right]
      rw [← List.take_length (l := L), ← hk, ← htake]
      exact List.take_prefix _ _
  | cons e rest ih =>
      intro log k hmatch hes hkL hkm htake
      rw [Node.mergeLog]
      have hlt : k < L.length := by
        by_contra hge
        rw [List.drop_eq_nil_iff.mpr (by omega)] at hes
        exact absurd hes (by simp)
      have hsplit : log.body.take k ++ (e :: rest) = L := by
        rw [htake, ← hes, List.take_append_drop]
      have hLk : termIn L (k + 1) = e.term := by
        unfold termIn
        rw [if_neg (Nat.succ_ne_zero k), Nat.add_sub_cancel]
        have : L[k]? = some e := by
          rw [← List.head?_drop, hes]; rfl
        rw [this]; rfl
      by_cases hc : log.contains (k + 1) = true
      · have hkm' := (contains_iff _ _).mp hc
        rw [if_pos hc]
        by_cases ht : log.termAt (k + 1) = e.term
        · rw [if_neg (by simpa using ht)]
          refine ih log (k + 1) hmatch ?_ (by omega) hkm' ?_
          · rw [List.drop_add_one_eq_tail_drop, hes]; rfl
          · rw [termAt_eq] at ht
            exact hmatch (k + 1) (by omega) hkm' (by omega) (by rw [ht, hLk])
        · rw [if_pos ht, body_append, body_truncateAfter, Nat.add_sub_cancel, hsplit]
          rw [graft_eq_left]
          refine not_prefix_of_term (k := k + 1) (by omega) ?_
          rw [hLk, ← termAt_eq]; exact ht
      · have hlen : log.body.length = k := by
          by_contra hne
          exact hc ((contains_iff _ _).mpr (by omega))
        rw [if_neg hc, body_append]
        have htk : log.body.take k = log.body := List.take_of_length_le (by omega)
        rw [htk] at hsplit
        rw [hsplit, graft_eq_left]
        intro hp
        have := hp.length_le
        omega

/-- A request that ships `L` and passes the check grafts `L`. -/
theorem body_merge_of_consistent {L : List LogEntry} {log : RaftLog} {args : AppendEntriesArgs}
    (hmatch : Matching log.body L) (hs : Ships L args) (hc : Node.consistent log args) :
    (Node.mergeLog log (args.prevLogIndex + 1) args.entries).body = graft L log.body := by
  refine body_mergeLog args.entries log args.prevLogIndex hmatch hs.entries.symm hs.prev_le ?_ ?_
  · rcases hc with h0 | ⟨hle, _⟩
    · omega
    · exact hle
  · rcases hc with h0 | ⟨hle, ht⟩
    · rw [h0]; rfl
    · rcases Nat.eq_zero_or_pos args.prevLogIndex with h0 | hpos
      · rw [h0]; rfl
      · refine hmatch _ hpos hle hs.prev_le ?_
        rw [← termAt_eq, ht, hs.prev_term]

end GammaFlow.Raft
