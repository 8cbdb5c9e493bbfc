import Mathlib.Data.List.Forall2
import GammaFlow.Storage.Codec

/-!
# The write-ahead log as files of bytes

`NewWAL`, `Append`, `rotate` and `Replay` over a directory of files, oldest first. A
file is what lies on disk; `fileSize` is what the open log believes of its last file,
which `Replay` may have truncated behind its back.

Over a directory that holds whole records, `Replay` is the `replay` of records that
the nodes are modelled with: `WalFiles.replay_of_stores`.
-/

namespace GammaFlow.Storage

/-! ## Replaying one file -/

def Replayed.applyPayload (J : Json) (acc : Replayed) (recordType : Nat) (payload : Bytes) :
    Replayed :=
  match J.decode recordType payload with
  | some r => acc.applyRecord r
  | none => acc

/--
The loop of `replayFile`. It returns what the accumulators hold and where the file is
to be truncated, if it is, and `none` if a slice expression panics. `validOffset` is
advanced by a 32-bit sum.
-/
def replayLoop (J : Json) (rest : Bytes) (validOffset : Nat) (acc : Replayed) :
    Option (Replayed × Option Nat) :=
  match h : readRecord rest with
  | .ended => some (acc, none)
  | .incomplete => some (acc, some validOffset)
  | .mismatch => some (acc, some validOffset)
  | .outOfRange => none
  | .record recordType payload =>
      have := length_of_readRecord h
      replayLoop J (rest.drop (8 + payload.length + 4))
        (validOffset + (8 + payload.length + 4) % 2 ^ 32)
        (acc.applyPayload J recordType payload)
termination_by rest.length
decreasing_by simp only [List.length_drop]; omega

/-- `replayFile`: what it returns, and the file afterwards. -/
def Json.replayFile (J : Json) (file : Bytes) : Option (Replayed × Bytes) :=
  (replayLoop J file 0 Replayed.zero).map fun (acc, truncated) =>
    (acc, match truncated with
      | some offset => file.take offset
      | none => file)

/-! ## The open log -/

def maxWALSize : Nat := 64 * 1024 * 1024

/-- The directory, with its last file open for appending. -/
structure WalFiles where
  older : List Bytes
  file : Bytes
  fileSize : Nat
  deriving DecidableEq

namespace WalFiles

def dir (w : WalFiles) : List Bytes := w.older ++ [w.file]

/-- `NewWAL`: the last file is opened, or the first one created. -/
def newWAL (dir : List Bytes) : WalFiles :=
  match dir.getLast? with
  | some f => { older := dir.dropLast, file := f, fileSize := f.length }
  | none => { older := [], file := [], fileSize := 0 }

def rotate (w : WalFiles) : WalFiles :=
  { older := w.older ++ [w.file], file := [], fileSize := 0 }

/-- The rotation check of `Append`. -/
def room (w : WalFiles) (recordSize : Nat) : WalFiles :=
  if w.fileSize + recordSize > maxWALSize then w.rotate else w

def append (J : Json) (w : WalFiles) (r : WalRecord) : WalFiles :=
  let w := w.room (4 + 4 + (J.marshal r).length + 4)
  { w with file := w.file ++ J.encode r, fileSize := w.fileSize + (J.encode r).length }

def appendAll (J : Json) (w : WalFiles) (rs : List J.Record) : WalFiles :=
  rs.foldl (fun (w : WalFiles) (r : J.Record) => w.append J r.1) w

/--
An `append` that returns an error from its write or its sync, with `k` bytes of the record in
the file. `fileSize` is not advanced then.
-/
def fail (J : Json) (w : WalFiles) (r : WalRecord) (k : Nat) : WalFiles :=
  let w := w.room (4 + 4 + (J.marshal r).length + 4)
  { w with file := w.file ++ (J.encode r).take k }

/-- The directory after a crash that let only `k` bytes of an append through. -/
def tear (J : Json) (w : WalFiles) (r : WalRecord) (k : Nat) : List Bytes := (w.fail J r k).dir

/-- `Replay`: the files are read, and cut where they are damaged, one after the other. -/
def replay (J : Json) (w : WalFiles) : Option (WalFiles × Replayed) := do
  let older ← w.older.mapM J.replayFile
  let last ← J.replayFile w.file
  return ({ w with older := older.map Prod.snd, file := last.2 },
    (older ++ [last]).foldl (fun acc r => acc.merge r.1) Replayed.zero)

/-- `NewWAL`, `Replay`, and some appends: the directory they leave. -/
def session (J : Json) (dir : List Bytes) (rs : List J.Record) : Option (List Bytes) :=
  ((newWAL dir).replay J).map fun (w, _) => (w.appendAll J rs).dir

theorem tear_eq_room (J : Json) (w : WalFiles) (r : WalRecord) (k : Nat) :
    w.tear J r k = (w.room (4 + 4 + (J.marshal r).length + 4)).older ++
      [(w.room (4 + 4 + (J.marshal r).length + 4)).file ++ (J.encode r).take k] := rfl

@[simp] theorem newWAL_concat (older : List Bytes) (f : Bytes) :
    newWAL (older ++ [f]) = { older := older, file := f, fileSize := f.length } := by
  unfold newWAL
  rw [List.getLast?_concat]
  simp

end WalFiles

/-! ## Files of whole records -/

variable {J : Json}

def plain (rs : List J.Record) : List WalRecord := rs.map Subtype.val

def encodeAll (rs : List J.Record) : Bytes := rs.flatMap fun (r : J.Record) => J.encode r.1

@[simp] theorem plain_append (rs ss : List J.Record) : plain (rs ++ ss) = plain rs ++ plain ss :=
  List.map_append

theorem flatten_plain (fs : List (List J.Record)) (f : List J.Record) :
    ((fs ++ [f]).map plain).flatten = plain (fs.flatten ++ f) := by
  rw [List.map_append, List.flatten_append, plain_append]
  have h : (fs.map plain).flatten = plain fs.flatten := by
    rw [plain, List.map_flatten]; rfl
  rw [h]
  simp

@[simp] theorem encodeAll_append (rs ss : List J.Record) :
    encodeAll (rs ++ ss) = encodeAll rs ++ encodeAll ss := by
  simp [encodeAll]

@[simp] theorem encodeAll_singleton (r : J.Record) : encodeAll [r] = J.encode r := by
  simp [encodeAll]

theorem length_encode (r : J.Record) : (J.encode r).length = 8 + (J.marshal r).length + 4 :=
  length_frame _ _

theorem readRecord_encode (r : J.Record) (t : Bytes) :
    readRecord (J.encode r ++ t) = .record r.1.recordType (J.marshal r) := by
  refine readRecord_frame ?_ (Nat.lt_trans r.2 (by decide)) t
  rcases recordType_cases r.1 with h | h | h
  · rw [h]; decide
  · rw [h]; decide
  · rw [h]; decide

/-! One turn of the loop, by what it finds. -/

theorem replayLoop_of_record {rest payload : Bytes} {recordType : Nat}
    (h : readRecord rest = .record recordType payload) (offset : Nat) (acc : Replayed) :
    replayLoop J rest offset acc =
      replayLoop J (rest.drop (8 + payload.length + 4)) (offset + (8 + payload.length + 4) % 2 ^ 32)
        (acc.applyPayload J recordType payload) := by
  rw [replayLoop]
  split <;> simp_all

theorem replayLoop_of_ended {t : Bytes} (h : readRecord t = .ended) (offset : Nat)
    (acc : Replayed) : replayLoop J t offset acc = some (acc, none) := by
  rw [replayLoop]
  split <;> simp_all

theorem replayLoop_of_damaged {t : Bytes} (h : readRecord t = .incomplete ∨ readRecord t = .mismatch)
    (offset : Nat) (acc : Replayed) : replayLoop J t offset acc = some (acc, some offset) := by
  rw [replayLoop]
  split <;> simp_all

/-- The loop goes over whole records as the fold over records does. -/
theorem replayLoop_encodeAll (rs : List J.Record) (t : Bytes) : ∀ (offset : Nat) (acc : Replayed),
    replayLoop J (encodeAll rs ++ t) offset acc =
      replayLoop J t (offset + (encodeAll rs).length)
        ((plain rs).foldl Replayed.applyRecord acc) := by
  induction rs with
  | nil => intro offset acc; simp [encodeAll, plain]
  | cons r rs ih =>
      intro offset acc
      have hsplit : encodeAll (r :: rs) = J.encode r ++ encodeAll rs := List.flatMap_cons
      have hlen := length_encode r
      have hfits := r.2
      have hplain : plain (r :: rs) = r.1 :: plain rs := List.map_cons
      have happly : acc.applyPayload J r.1.recordType (J.marshal r) = acc.applyRecord r := by
        rw [Replayed.applyPayload, J.decode_marshal]
      rw [hsplit, List.append_assoc, replayLoop_of_record (readRecord_encode r _), happly, ← hlen,
        List.drop_left, Nat.mod_eq_of_lt (by omega), ih, List.length_append, Nat.add_assoc, hplain,
        List.foldl_cons]

/-- A remainder shorter than a header is not noticed, and stays. -/
theorem replayFile_of_short (rs : List J.Record) {t : Bytes} (ht : t.length < 8) :
    J.replayFile (encodeAll rs ++ t) = some (replayFile (plain rs), encodeAll rs ++ t) := by
  unfold Json.replayFile
  rw [replayLoop_encodeAll, replayLoop_of_ended (readRecord_ended ht)]
  simp only [Option.map_some, replayFile]

/-- A remainder that is recognised as damaged is cut off. -/
theorem replayFile_of_damaged (rs : List J.Record) {t : Bytes}
    (ht : readRecord t = .incomplete ∨ readRecord t = .mismatch) :
    J.replayFile (encodeAll rs ++ t) = some (replayFile (plain rs), encodeAll rs) := by
  unfold Json.replayFile
  rw [replayLoop_encodeAll, replayLoop_of_damaged ht]
  simp only [Option.map_some, Nat.zero_add, List.take_left, replayFile]

/-! ## Directories of whole records -/

/-- The file holds these records, and perhaps a remainder too short for a header. -/
def Stores (file : Bytes) (rs : List J.Record) : Prop :=
  ∃ t, file = encodeAll rs ++ t ∧ t.length < 8

theorem stores_encodeAll (rs : List J.Record) : Stores (encodeAll rs) rs :=
  ⟨[], (List.append_nil _).symm, by decide⟩

theorem Stores.replayFile {file : Bytes} {rs : List J.Record} (h : Stores file rs) :
    J.replayFile file = some (Storage.replayFile (plain rs), file) := by
  obtain ⟨t, rfl, ht⟩ := h
  exact replayFile_of_short rs ht

theorem mapM_replayFile {files : List Bytes} {fs : List (List J.Record)}
    (h : List.Forall₂ Stores files fs) : ∃ out, files.mapM J.replayFile = some out ∧
      out.map Prod.fst = fs.map (fun rs => Storage.replayFile (plain rs)) ∧
      out.map Prod.snd = files := by
  induction h with
  | nil => exact ⟨[], rfl, rfl, rfl⟩
  | @cons file rs files fs hd _ ih =>
      obtain ⟨out, hout, hfst, hsnd⟩ := ih
      refine ⟨(Storage.replayFile (plain rs), file) :: out, ?_, ?_, ?_⟩
      · rw [List.mapM_cons, hd.replayFile, hout]; rfl
      · rw [List.map_cons, List.map_cons, hfst]
      · rw [List.map_cons, hsnd]

theorem replay_eq_foldl_merge (files : List (List WalRecord)) :
    Storage.replay files = (files.map Storage.replayFile).foldl Replayed.merge Replayed.zero := by
  rw [Storage.replay, List.foldl_map]

namespace WalFiles

/-- `Replay` goes over the whole directory, the open file last. -/
theorem replay_eq_mapM (w : WalFiles) : w.replay J = (w.dir.mapM J.replayFile).map fun out =>
    ({ w with older := (out.map Prod.snd).dropLast, file := (out.map Prod.snd).getLast?.getD [] },
      out.foldl (fun acc r => acc.merge r.1) Replayed.zero) := by
  unfold replay dir
  rw [List.mapM_append]
  cases w.older.mapM J.replayFile with
  | none => rfl
  | some older =>
      cases hlast : J.replayFile w.file with
      | none => simp [hlast]
      | some last => simp [hlast]

/-- `Replay` of whole records returns their fold, whatever becomes of the last file. -/
theorem replay_of_stores {w : WalFiles} {fs : List (List J.Record)} {f : List J.Record}
    {file' : Bytes} (hold : List.Forall₂ Stores w.older fs)
    (hlast : J.replayFile w.file = some (Storage.replayFile (plain f), file')) :
    w.replay J = some ({ w with file := file' }, Storage.replay ((fs ++ [f]).map plain)) := by
  obtain ⟨out, hout, hfst, hsnd⟩ := mapM_replayFile hold
  have hresult : (out ++ [(Storage.replayFile (plain f), file')]).foldl
      (fun acc r => acc.merge r.1) Replayed.zero = Storage.replay ((fs ++ [f]).map plain) := by
    rw [replay_eq_foldl_merge, ← List.foldl_map (f := Prod.fst), List.map_append, hfst]
    simp [Function.comp_def]
  unfold replay
  rw [hout, hlast]
  simp only [Option.bind_eq_bind, Option.bind_some, hsnd, hresult]
  rfl

/-- The log holds these records and its last file can be appended to. -/
def Holds (w : WalFiles) (rs : List J.Record) : Prop :=
  ∃ fs f, List.Forall₂ Stores w.older fs ∧ w.file = encodeAll f ∧ fs.flatten ++ f = rs

theorem Holds.rotate {w : WalFiles} {fs : List (List J.Record)} {f : List J.Record}
    (hold : List.Forall₂ Stores w.older fs) (hf : Stores w.file f) :
    Holds w.rotate (fs.flatten ++ f) := by
  refine ⟨fs ++ [f], [], List.rel_append hold (List.Forall₂.cons hf List.Forall₂.nil), rfl, ?_⟩
  simp

theorem Holds.room {w : WalFiles} {rs : List J.Record} (h : Holds w rs) (n : Nat) :
    Holds (w.room n) rs := by
  obtain ⟨fs, f, hold, hf, rfl⟩ := h
  unfold WalFiles.room
  split
  · exact Holds.rotate hold (hf ▸ stores_encodeAll f)
  · exact ⟨fs, f, hold, hf, rfl⟩

theorem Holds.append_of_room {w : WalFiles} {rs : List J.Record} {r : J.Record}
    (h : Holds (w.room (4 + 4 + (J.marshal r).length + 4)) rs) :
    Holds (w.append J r) (rs ++ [r]) := by
  obtain ⟨fs, f, hold, hf, rfl⟩ := h
  refine ⟨fs, f ++ [r], hold, ?_, (List.append_assoc _ _ _).symm⟩
  rw [encodeAll_append, encodeAll_singleton, ← hf]
  rfl

theorem Holds.appendAll (ss : List J.Record) : ∀ {w : WalFiles} {rs : List J.Record},
    Holds w rs → Holds (w.appendAll J ss) (rs ++ ss) := by
  induction ss with
  | nil => intro w rs h; rw [List.append_nil]; exact h
  | cons s ss ih =>
      intro w rs h
      have hnext := ih (Holds.append_of_room (r := s) (h.room _))
      rw [List.append_assoc] at hnext
      exact hnext

theorem holds_newWAL : Holds (newWAL []) ([] : List J.Record) :=
  ⟨[], [], List.Forall₂.nil, rfl, rfl⟩

end WalFiles

/-! ## The log of records and the log of bytes -/

/-- The rotation check of `Append`, on the records of the last file. -/
def Json.rotates (J : Json) (files : List (List WalRecord)) (r : WalRecord) : Bool :=
  ((files.getLast?.getD []).flatMap J.encode).length + (J.encode r).length > maxWALSize

/-- The files of `w` are those of `d` in bytes, and `w` knows the size of the last one. -/
def Refines (w : WalFiles) (d : Wal J.rotates) : Prop :=
  ∃ (fs : List (List J.Record)) (f : List J.Record), w.older = fs.map encodeAll ∧
    w.file = encodeAll f ∧ w.fileSize = (encodeAll f).length ∧ d.files = fs.map plain ++ [plain f]

theorem refines_empty : Refines (WalFiles.newWAL []) (Wal.empty : Wal J.rotates) :=
  ⟨[], [], rfl, rfl, rfl, rfl⟩

theorem flatMap_plain (rs : List J.Record) : (plain rs).flatMap J.encode = encodeAll rs := by
  rw [plain, List.flatMap_map, encodeAll]

theorem refines_append {w : WalFiles} {d : Wal J.rotates} (h : Refines w d) (r : J.Record) :
    Refines (w.append J r) (d.append r) := by
  obtain ⟨fs, f, hold, hf, hsize, hfiles⟩ := h
  have hlen := length_encode r
  have hcheck : J.rotates d.files r = decide (w.fileSize + (J.encode r).length > maxWALSize) := by
    rw [Json.rotates, hfiles, List.getLast?_concat, Option.getD_some, flatMap_plain, hsize]
  unfold WalFiles.append Wal.append WalFiles.room
  rw [hcheck]
  by_cases hfull : w.fileSize + (J.encode r).length > maxWALSize
  · rw [if_pos (by omega), if_pos (by simpa using hfull)]
    refine ⟨fs ++ [f], [r], ?_, ?_, ?_, ?_⟩
    · simp [WalFiles.rotate, hold, hf]
    · simp [WalFiles.rotate]
    · simp [WalFiles.rotate]
    · simp [hfiles, plain]
  · rw [if_neg (by omega), if_neg (by simpa using hfull)]
    refine ⟨fs, f ++ [r], hold, ?_, ?_, ?_⟩
    · rw [encodeAll_append, encodeAll_singleton, ← hf]
    · rw [encodeAll_append, encodeAll_singleton, List.length_append, ← hsize]
    · simp [hfiles, plain]

theorem refines_appendAll (rs : List J.Record) : ∀ {w : WalFiles} {d : Wal J.rotates},
    Refines w d → Refines (w.appendAll J rs) (Journal.appendAll d (plain rs)) := by
  induction rs with
  | nil => intro w d h; exact h
  | cons r rs ih => intro w d h; exact ih (refines_append h r)

/--
**The bytes refine the records.** Whatever is appended to an empty directory, `NewWAL`
and `Replay` return what the log of records returns that rotates by size.
-/
theorem replay_appendAll (J : Json) (rs : List J.Record) :
    ((WalFiles.newWAL ((WalFiles.newWAL []).appendAll J rs).dir).replay J).map Prod.snd =
      some (Storage.replay (Journal.appendAll (Wal.empty : Wal J.rotates) (plain rs)).files) := by
  obtain ⟨fs, f, hold, hf, _, hfiles⟩ := refines_appendAll rs (refines_empty (J := J))
  have hstores : List.Forall₂ Stores (fs.map encodeAll) fs := by
    rw [List.forall₂_map_left_iff]
    exact List.forall₂_same.mpr fun rs _ => stores_encodeAll rs
  rw [WalFiles.dir, hold, hf, WalFiles.newWAL_concat, hfiles,
    WalFiles.replay_of_stores hstores (stores_encodeAll f).replayFile]
  simp

end GammaFlow.Storage
