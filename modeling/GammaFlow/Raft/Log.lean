import GammaFlow.Raft.Types
import GammaFlow.Lib.Consensus.System

/-!
# The in-memory log

`RaftLog` as the source has it: a slice whose position `0` is a sentinel. That the
sentinel is there is part of the type, so no operation can lose it.

Proofs look at a log through `body`, the slice without its sentinel: every
operation is restated once in terms of it, and nothing above this module unfolds
the slice again.
-/

namespace GammaFlow.Raft

/-- The entry at position `0`. -/
def sentinel : LogEntry := { term := 0, index := 0, command := [] }

structure RaftLog where
  entries : List LogEntry
  head : entries.head? = some sentinel
  deriving DecidableEq

namespace RaftLog

/-- The log without its sentinel. -/
def body (l : RaftLog) : List LogEntry := l.entries.tail

theorem entries_eq (l : RaftLog) : l.entries = sentinel :: l.body := by
  have h := l.head
  unfold body
  cases he : l.entries with
  | nil => rw [he] at h; exact absurd h (by simp)
  | cons x xs => rw [he] at h; rw [Option.some.inj h]; rfl

/-- A log with the given entries after the sentinel. -/
def ofBody (es : List LogEntry) : RaftLog := ⟨sentinel :: es, rfl⟩

@[ext] theorem ext_body {l m : RaftLog} (h : l.body = m.body) : l = m := by
  have he : l.entries = m.entries := by rw [entries_eq, entries_eq, h]
  cases l; cases m; cases he; rfl

/-! ## The operations -/

def newRaftLog : RaftLog := ⟨[sentinel], rfl⟩

def append (l : RaftLog) (es : List LogEntry) : RaftLog where
  entries := l.entries ++ es
  head := by rw [entries_eq]; rfl

def lastIndex (l : RaftLog) : Nat := l.entries.length - 1

def lastTerm (l : RaftLog) : Nat := (l.entries.getLast?.map LogEntry.term).getD 0

def truncateAfter (l : RaftLog) (idx : Nat) : RaftLog where
  entries := if idx < l.entries.length - 1 then l.entries.take (idx + 1) else l.entries
  head := by
    rw [entries_eq]
    split <;> rfl

/-- The entries from `startIdx` to `endIdx` inclusive. -/
def entriesBetween (l : RaftLog) (startIdx endIdx : Nat) : List LogEntry :=
  if startIdx > endIdx ∨ startIdx ≥ l.entries.length then []
  else
    let endIdx := if endIdx ≥ l.entries.length then l.entries.length - 1 else endIdx
    (l.entries.take (endIdx + 1)).drop startIdx

def entriesFrom (l : RaftLog) (startIdx : Nat) : List LogEntry :=
  l.entriesBetween startIdx l.lastIndex

def contains (l : RaftLog) (idx : Nat) : Bool := idx < l.entries.length

def termAt (l : RaftLog) (idx : Nat) : Nat :=
  if l.contains idx then (l.entries[idx]?.map LogEntry.term).getD 0 else 0

def restoreEntries (_ : RaftLog) (es : List LogEntry) : RaftLog := ⟨[sentinel] ++ es, rfl⟩

/-- The loop of `FindFirstIndexOfTerm` from position `i`, over the entries that remain. -/
def findFirstFrom (term : Nat) (i : Nat) : List LogEntry → Nat
  | [] => 0
  | e :: es => if e.term = term then i else findFirstFrom term (i + 1) es

def findFirstIndexOfTerm (l : RaftLog) (term : Nat) : Nat :=
  findFirstFrom term 1 (l.entries.drop 1)

/-- The loop of `handleConflictLocked`: from `i` down to `1`, the first index of `term`. -/
def findLastFrom (l : RaftLog) (term : Nat) : Nat → Nat
  | 0 => 0
  | i + 1 => if l.termAt (i + 1) = term then i + 1 else l.findLastFrom term i

/-! ## The operations on the body -/

theorem length_entries (l : RaftLog) : l.entries.length = l.body.length + 1 := by
  rw [entries_eq, List.length_cons]

@[simp] theorem body_append (l : RaftLog) (es : List LogEntry) :
    (l.append es).body = l.body ++ es := by
  show (l.entries ++ es).tail = l.body ++ es
  rw [entries_eq]; rfl

@[simp] theorem lastIndex_eq (l : RaftLog) : l.lastIndex = l.body.length := by
  unfold lastIndex; rw [length_entries]; rfl

theorem body_truncateAfter (l : RaftLog) (idx : Nat) :
    (l.truncateAfter idx).body = l.body.take idx := by
  show (if idx < l.entries.length - 1 then l.entries.take (idx + 1) else l.entries).tail = _
  rw [length_entries]
  split
  · rw [entries_eq]; rfl
  · rw [List.take_of_length_le (by omega)]; rfl

@[simp] theorem contains_iff (l : RaftLog) (idx : Nat) :
    l.contains idx = true ↔ idx ≤ l.body.length := by
  unfold contains
  rw [length_entries, decide_eq_true_iff]; omega

theorem body_restoreEntries (l : RaftLog) (es : List LogEntry) :
    (l.restoreEntries es).body = es := rfl

/-- The term at position `k` of a list of entries, counting from `1`; `0` outside. -/
def termIn (L : List LogEntry) (k : Nat) : Nat :=
  if k = 0 then 0 else (L[k - 1]?.map LogEntry.term).getD 0

theorem termAt_eq (l : RaftLog) (idx : Nat) : l.termAt idx = termIn l.body idx := by
  unfold termAt termIn
  cases idx with
  | zero => rw [entries_eq]; simp [sentinel]
  | succ k =>
      rw [if_neg (Nat.succ_ne_zero k), Nat.add_sub_cancel]
      by_cases h : l.contains (k + 1)
      · rw [if_pos h, entries_eq, List.getElem?_cons_succ]
      · rw [if_neg h]
        have hlen : l.body.length ≤ k := by
          by_contra hlt
          exact h ((contains_iff l (k + 1)).mpr (by omega))
        rw [List.getElem?_eq_none hlen]; rfl

theorem lastTerm_eq (l : RaftLog) :
    l.lastTerm = (l.body.getLast?.map LogEntry.term).getD 0 := by
  unfold lastTerm
  rw [entries_eq]
  cases hb : l.body with
  | nil => rfl
  | cons x xs => rw [List.getLast?_cons_cons]

/-- A read of the log to its end. -/
theorem entriesFrom_eq (l : RaftLog) {idx : Nat} (h : 1 ≤ idx) :
    l.entriesFrom idx = l.body.drop (idx - 1) := by
  unfold entriesFrom entriesBetween
  rw [lastIndex_eq, length_entries]
  split
  · rw [List.drop_of_length_le (by omega)]
  · rw [if_neg (by omega)]
    dsimp only
    rw [List.take_of_length_le (l.length_entries).le, entries_eq]
    obtain ⟨k, rfl⟩ : ∃ k, idx = k + 1 := ⟨idx - 1, by omega⟩
    rw [List.drop_succ_cons, Nat.add_sub_cancel]

theorem entriesBetween_eq (l : RaftLog) {startIdx endIdx : Nat} (h1 : 1 ≤ startIdx)
    (hend : endIdx ≤ l.body.length) :
    l.entriesBetween startIdx endIdx = (l.body.take endIdx).drop (startIdx - 1) := by
  unfold entriesBetween
  rw [length_entries]
  split
  · rw [List.drop_of_length_le (by rw [List.length_take]; omega)]
  · dsimp only
    rw [if_neg (by omega), entries_eq, List.take_succ_cons]
    obtain ⟨k, rfl⟩ : ∃ k, startIdx = k + 1 := ⟨startIdx - 1, by omega⟩
    rw [List.drop_succ_cons, Nat.add_sub_cancel]

/-- An index of the term is not before the first one. -/
theorem findFirstFrom_le {term : Nat} {e : LogEntry} (ht : e.term = term) :
    ∀ {es : List LogEntry} {i j : Nat}, es[j]? = some e → findFirstFrom term i es ≤ i + j := by
  intro es
  induction es with
  | nil => intro i j h; exact absurd h (by simp)
  | cons x es ih =>
      intro i j h
      rw [findFirstFrom]
      split
      · exact Nat.le_add_right _ _
      · rename_i hx
        cases j with
        | zero => exact absurd (Option.some.inj h ▸ ht) hx
        | succ j =>
            have := ih (i := i + 1) h
            omega

theorem findLastFrom_le (l : RaftLog) (term : Nat) : ∀ k, l.findLastFrom term k ≤ k := by
  intro k
  induction k with
  | zero => exact Nat.le_refl _
  | succ k ih =>
      rw [findLastFrom]
      split
      · exact Nat.le_refl _
      · exact Nat.le_succ_of_le ih

theorem findFirstFrom_pos {term : Nat} {e : LogEntry} : ∀ {es : List LogEntry} {i : Nat},
    1 ≤ i → e ∈ es → e.term = term → 1 ≤ findFirstFrom term i es := by
  intro es
  induction es with
  | nil => intro i _ h _; exact absurd h (by simp)
  | cons x xs ih =>
      intro i hi h ht
      rw [findFirstFrom]
      split
      · exact hi
      · rename_i hne
        rcases List.mem_cons.mp h with rfl | h
        · exact absurd ht hne
        · exact ih (by omega) h ht

theorem ne_of_findLastFrom (l : RaftLog) {term : Nat} : ∀ {k : Nat}, l.findLastFrom term k = 0 →
    ∀ i, 1 ≤ i → i ≤ k → l.termAt i ≠ term := by
  intro k
  induction k with
  | zero => intro _ i h1 hi; omega
  | succ k ih =>
      rw [findLastFrom]
      split
      · intro h; exact absurd h (Nat.succ_ne_zero k)
      · rename_i hne
        intro h i h1 hi
        rcases Nat.lt_or_ge i (k + 1) with hlt | hge
        · exact ih h i h1 (by omega)
        · rw [Nat.le_antisymm hi hge]; exact hne

theorem termAt_findLastFrom (l : RaftLog) {term : Nat} : ∀ {k : Nat},
    0 < l.findLastFrom term k → l.termAt (l.findLastFrom term k) = term := by
  intro k
  induction k with
  | zero => intro h; exact absurd h (Nat.lt_irrefl 0)
  | succ k ih =>
      rw [findLastFrom]
      split
      · intro _; assumption
      · exact ih

/-- A place of the term is not before the first one, which is a place in the log. -/
theorem findFirstIndexOfTerm_le (l : RaftLog) {k : Nat} (h1 : 1 ≤ k) (hk : k ≤ l.body.length) :
    1 ≤ l.findFirstIndexOfTerm (termIn l.body k) ∧
      l.findFirstIndexOfTerm (termIn l.body k) ≤ k := by
  have hget : l.body[k - 1]? = some (l.body.get ⟨k - 1, by omega⟩) :=
    List.getElem?_eq_getElem (by omega)
  have hterm : (l.body.get ⟨k - 1, by omega⟩).term = termIn l.body k := by
    rw [termIn, if_neg (by omega), hget]
    rfl
  have hdrop : l.entries.drop 1 = l.body := by rw [entries_eq]; rfl
  unfold findFirstIndexOfTerm
  rw [hdrop]
  refine ⟨findFirstFrom_pos (Nat.le_refl 1) (List.mem_of_getElem? hget) hterm, ?_⟩
  have := findFirstFrom_le hterm (i := 1) hget
  omega

end RaftLog

/-! ## Positions and prefixes -/

open RaftLog

theorem termIn_eq_of_le {L M : List LogEntry} {k : Nat} (h : L <+: M) (hk : k ≤ L.length) :
    termIn L k = termIn M k := by
  unfold termIn
  split
  · rfl
  · obtain ⟨R, rfl⟩ := h
    rw [List.getElem?_append_left (by omega)]

theorem termIn_eq_of_take {L M : List LogEntry} {k : Nat} (h : L.take k = M.take k) :
    termIn L k = termIn M k := by
  unfold termIn
  split
  · rfl
  · rw [← List.getElem?_take_of_lt (l := L) (i := k - 1) (j := k) (by omega), h,
      List.getElem?_take_of_lt (by omega)]

/-- A position inside a log splits it after the entry found there. -/
theorem exists_at {L : List LogEntry} {k : Nat} (h1 : 1 ≤ k) (hk : k ≤ L.length) :
    ∃ P e, P ++ [e] <+: L ∧ P.length + 1 = k ∧ L[k - 1]? = some e ∧ P ++ [e] = L.take k ∧
      termIn L k = e.term := by
  have hlt : k - 1 < L.length := by omega
  have htake : L.take (k - 1) ++ [L[k - 1]] = L.take k := by
    rw [List.take_append_getElem]
    congr 1; omega
  refine ⟨L.take (k - 1), L[k - 1], ?_, ?_, List.getElem?_eq_getElem hlt, htake, ?_⟩
  · rw [htake]; exact List.take_prefix _ _
  · rw [List.length_take]; omega
  · unfold termIn
    rw [if_neg (by omega), List.getElem?_eq_getElem hlt]; rfl

theorem termIn_mono {L : List LogEntry} (h : L.Pairwise fun a b => a.term ≤ b.term) {i j : Nat}
    (h1 : 1 ≤ i) (hij : i ≤ j) (hj : j ≤ L.length) : termIn L i ≤ termIn L j := by
  obtain ⟨_, a, _, _, ha, _, hta⟩ := exists_at h1 (Nat.le_trans hij hj)
  obtain ⟨_, b, _, _, hb, _, htb⟩ := exists_at (Nat.le_trans h1 hij) hj
  rw [hta, htb]
  rcases Nat.eq_or_lt_of_le hij with rfl | hlt
  · rw [Option.some.inj (ha.symm.trans hb)]
  · obtain ⟨hi', hia⟩ := List.getElem?_eq_some_iff.mp ha
    obtain ⟨hj', hjb⟩ := List.getElem?_eq_some_iff.mp hb
    have := List.pairwise_iff_getElem.mp h (i - 1) (j - 1) hi' hj' (by omega)
    rw [hia, hjb] at this
    exact this

end GammaFlow.Raft
