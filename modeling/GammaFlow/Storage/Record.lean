import Mathlib.Data.List.Basic

/-!
# Write-ahead log records and how they are folded back

The three record types of the write-ahead log and the fold `replayFile` makes over
the records of one file, with the merge `Replay` makes over the files. This is the
log as a stream of whole records; its bytes are the subject of
`GammaFlow.Storage.Codec`.

`Journal` is what a node needs of a log: something to append to, which may refuse.
`Wal` is the journal that never fails, with its records spread over files at
whatever points the rotation policy picks.
-/

namespace GammaFlow.Storage

/-- `EntryRecord` of the source. -/
structure EntryRecord where
  index : Nat
  term : Nat
  command : List UInt8
  deriving DecidableEq, Repr

inductive WalRecord where
  | term (term : Nat)
  | vote (votedFor : String) (term : Nat)
  | entry (rec : EntryRecord)
  deriving DecidableEq, Repr

/-- What a replay returns. -/
structure Replayed where
  term : Nat
  votedFor : String
  entries : List EntryRecord
  deriving DecidableEq, Repr

def Replayed.zero : Replayed := { term := 0, votedFor := "", entries := [] }

/-- The `switch` on the record type: a term overwrites, a vote only raises the term. -/
def Replayed.applyRecord (acc : Replayed) : WalRecord → Replayed
  | .term t => { acc with term := t }
  | .vote v t => { acc with votedFor := v, term := if t > acc.term then t else acc.term }
  | .entry e => { acc with entries := acc.entries ++ [e] }

/-- `replayFile` over the records of one file. -/
def replayFile (recs : List WalRecord) : Replayed := recs.foldl Replayed.applyRecord Replayed.zero

/-- What `Replay` does with the result of one more file. -/
def Replayed.merge (acc r : Replayed) : Replayed where
  term := if r.term > 0 then r.term else acc.term
  votedFor := if r.votedFor ≠ "" then r.votedFor else acc.votedFor
  entries := acc.entries ++ r.entries

/-- `Replay` over all files, oldest first. -/
def replay (files : List (List WalRecord)) : Replayed :=
  files.foldl (fun acc f => acc.merge (replayFile f)) Replayed.zero

/-! ## Entries survive any split into files -/

def WalRecord.entry? : WalRecord → Option EntryRecord
  | .entry e => some e
  | _ => none

theorem applyRecord_entries (acc : Replayed) (r : WalRecord) :
    (acc.applyRecord r).entries = acc.entries ++ [r].filterMap WalRecord.entry? := by
  cases r with
  | term t => simp [Replayed.applyRecord, WalRecord.entry?]
  | vote v t => simp [Replayed.applyRecord, WalRecord.entry?]
  | entry e => simp [Replayed.applyRecord, WalRecord.entry?]

theorem foldl_applyRecord_entries (recs : List WalRecord) : ∀ acc : Replayed,
    (recs.foldl Replayed.applyRecord acc).entries
      = acc.entries ++ recs.filterMap WalRecord.entry? := by
  induction recs with
  | nil => intro acc; simp
  | cons r rs ih =>
      intro acc
      rw [List.foldl_cons, ih, applyRecord_entries, List.append_assoc, ← List.filterMap_append]
      rfl

/-- **Replay returns every entry record in the order it was written.** -/
theorem replay_entries (files : List (List WalRecord)) :
    (replay files).entries = files.flatten.filterMap WalRecord.entry? := by
  have key : ∀ (fs : List (List WalRecord)) (acc : Replayed),
      (fs.foldl (fun acc f => acc.merge (replayFile f)) acc).entries
        = acc.entries ++ fs.flatten.filterMap WalRecord.entry? := by
    intro fs
    induction fs with
    | nil => intro acc; simp
    | cons f fs ih =>
        intro acc
        rw [List.foldl_cons, ih]
        unfold Replayed.merge replayFile
        rw [foldl_applyRecord_entries, List.flatten_cons, List.filterMap_append]
        simp [Replayed.zero]
  exact key files Replayed.zero

/-! ## Journals -/

/-- Somewhere to append records to; the flag says whether the append returned `nil`. -/
class Journal (ω : Type) where
  append : ω → WalRecord → ω × Bool

/-- Append records one after the other, whether or not the appends succeed. -/
def Journal.appendAll {ω : Type} [Journal ω] (d : ω) (rs : List WalRecord) : ω :=
  rs.foldl (fun d r => (Journal.append d r).1) d

@[simp] theorem appendAll_nil {ω : Type} [Journal ω] (d : ω) : Journal.appendAll d [] = d := rfl

theorem appendAll_append {ω : Type} [Journal ω] (d : ω) (rs ss : List WalRecord) :
    Journal.appendAll d (rs ++ ss) = Journal.appendAll (Journal.appendAll d rs) ss := by
  unfold Journal.appendAll
  rw [List.foldl_append]

/-- A log that never fails and rotates when `rotates` says so. -/
structure Wal (rotates : List (List WalRecord) → WalRecord → Bool) where
  files : List (List WalRecord)
  deriving DecidableEq

namespace Wal

variable {rotates : List (List WalRecord) → WalRecord → Bool}

/-- The record stream, whatever files it lies in. -/
def records (w : Wal rotates) : List WalRecord := w.files.flatten

/-- An append goes to the last file, or opens the next one. -/
def append (w : Wal rotates) (r : WalRecord) : Wal rotates :=
  if rotates w.files r then ⟨w.files ++ [[r]]⟩
  else ⟨w.files.dropLast ++ [w.files.getLast?.getD [] ++ [r]]⟩

/-- `NewWAL` on an empty directory. -/
def empty : Wal rotates := ⟨[[]]⟩

instance : Journal (Wal rotates) where
  append w r := (w.append r, true)

@[simp] theorem records_append (w : Wal rotates) (r : WalRecord) :
    (w.append r).records = w.records ++ [r] := by
  unfold append records
  split
  · simp
  · cases h : w.files.getLast? with
    | none => rw [List.getLast?_eq_none_iff.mp h]; simp
    | some f =>
        have hsplit := List.dropLast_append_getLast? f (Option.mem_def.mpr h)
        conv_rhs => rw [← hsplit]
        simp

@[simp] theorem records_appendAll (rs : List WalRecord) : ∀ w : Wal rotates,
    (Journal.appendAll w rs).records = w.records ++ rs := by
  induction rs with
  | nil => intro w; rw [appendAll_nil, List.append_nil]
  | cons r rs ih =>
      intro w
      show (Journal.appendAll (w.append r) rs).records = _
      rw [ih, records_append, List.append_assoc]
      rfl

end Wal

end GammaFlow.Storage
