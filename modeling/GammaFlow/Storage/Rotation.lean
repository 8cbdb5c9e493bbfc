import GammaFlow.Storage.Directory
import GammaFlow.Storage.FailedAppends

/-!
# Rotations that fail

`NamedWal` rotates by opening the next file. In the source a rotation is three steps
with an error exit after each of them: the open file is closed, the id is raised, the
next file is opened. A failure leaves the log with a file that is closed, and nothing
sets `w.file` back to `nil` or opens it again.

`RotatingWal` is the log with its file handle, and with what the file system answers to
each operation. As long as everything works it is `NamedWal`. After the first rotation
that fails, `Append` returns an error for ever: either it finds the file full, and
`rotate` closes the closed file once more, or it writes to the closed file.
-/

namespace GammaFlow.Storage

/-- An `*os.File`: the name it was opened by, and whether `Close` was called. -/
structure Handle where
  name : Name
  closed : Bool
  deriving DecidableEq, Repr

/-- How the operations of one `Append` end, as far as it comes to them. -/
structure Answers where
  close : Bool
  openFile : Bool
  stat : Bool
  /-- The number of bytes that are written before an error. -/
  write : Option Nat
  sync : Bool
  deriving DecidableEq, Repr

def Answers.working : Answers :=
  { close := true, openFile := true, stat := true, write := none, sync := true }

/-- A file system in which no file can be opened. -/
def Answers.openFails : Answers := { Answers.working with openFile := false }

/-- What `Append` returns. -/
inductive AppendResult where
  | ok
  | errRotation
  | errWrite
  | errSync
  deriving DecidableEq, Repr

/--
The `WAL` of the source. Its file is never `nil`: `NewWAL` returns no log without one,
and no method clears the field.
-/
structure RotatingWal where
  dir : Directory
  file : Handle
  fileID : Nat
  fileSize : Nat
  deriving DecidableEq

namespace RotatingWal

/-- A call of `Append`. -/
structure Call (J : Json) where
  record : J.Record
  answers : Answers

def Call.working {J : Json} (r : J.Record) : Call J := ⟨r, Answers.working⟩

/-- `openCurrentFile`; `O_CREATE` has created the file even if `Stat` fails. -/
def openCurrentFile (w : RotatingWal) (a : Answers) : RotatingWal × Bool :=
  let name := fileName w.fileID
  if a.openFile then
    let dir := w.dir.create name
    if a.stat then
      ({ w with dir := dir, file := ⟨name, false⟩, fileSize := (dir.content name).length }, true)
    else ({ w with dir := dir }, false)
  else (w, false)

/-- `rotate`. A file that was closed before cannot be closed, one that is closed now is closed
even if that returns an error. -/
def rotate (w : RotatingWal) (a : Answers) : RotatingWal × Bool :=
  if w.file.closed then (w, false)
  else
    let w := { w with file := { w.file with closed := true } }
    if a.close then openCurrentFile { w with fileID := w.fileID + 1 } a
    else (w, false)

/-- The rotation check of `Append`. -/
def room (w : RotatingWal) (recordSize : Nat) (a : Answers) : RotatingWal × Bool :=
  if w.fileSize + recordSize > maxWALSize then w.rotate a else (w, true)

/-- The rest of `Append`: `Write`, `Sync` and the new size. -/
def writeRecord (w : RotatingWal) (buf : Bytes) (a : Answers) : RotatingWal × AppendResult :=
  if w.file.closed then (w, .errWrite)
  else
    let content := w.dir.content w.file.name
    match a.write with
    | some n => ({ w with dir := w.dir.write w.file.name (content ++ buf.take n) }, .errWrite)
    | none =>
        let w := { w with dir := w.dir.write w.file.name (content ++ buf) }
        if a.sync then ({ w with fileSize := w.fileSize + buf.length }, .ok)
        else (w, .errSync)

def append {J : Json} (w : RotatingWal) (c : Call J) : RotatingWal × AppendResult :=
  match w.room (4 + 4 + (J.marshal c.record).length + 4) c.answers with
  | (w, true) => w.writeRecord (J.encode c.record) c.answers
  | (w, false) => (w, .errRotation)

/-- Calls one after the other, as the callers make them: errors stop none. -/
def appendCalls {J : Json} (w : RotatingWal) : List (Call J) → RotatingWal × List AppendResult
  | [] => (w, [])
  | c :: cs =>
      let next := w.append c
      let rest := next.1.appendCalls cs
      (rest.1, next.2 :: rest.2)

/-- The records of the calls that returned `nil`. -/
def succeeded {J : Json} (w : RotatingWal) (cs : List (Call J)) : List J.Record :=
  (cs.zip (w.appendCalls cs).2).filterMap fun x => if x.2 = .ok then some x.1.record else none

def newWAL (dir : Directory) : RotatingWal :=
  let w := NamedWal.newWAL dir
  { dir := w.dir, file := ⟨fileName w.fileID, false⟩, fileID := w.fileID, fileSize := w.fileSize }

variable {J : Json}

theorem appendCalls_append (cs ds : List (Call J)) : ∀ w : RotatingWal,
    w.appendCalls (cs ++ ds) =
      (((w.appendCalls cs).1.appendCalls ds).1,
        (w.appendCalls cs).2 ++ ((w.appendCalls cs).1.appendCalls ds).2) := by
  induction cs with
  | nil => intro w; rfl
  | cons c cs ih =>
      intro w
      rw [List.cons_append, appendCalls, ih]
      rfl

/-! One `Append`, by how its rotation check ends. -/

theorem append_of_room {w w' : RotatingWal} {c : Call J}
    (h : w.room (4 + 4 + (J.marshal c.record).length + 4) c.answers = (w', true)) :
    w.append c = w'.writeRecord (J.encode c.record) c.answers := by
  unfold append
  rw [h]

theorem append_of_no_room {w w' : RotatingWal} {c : Call J}
    (h : w.room (4 + 4 + (J.marshal c.record).length + 4) c.answers = (w', false)) :
    w.append c = (w', .errRotation) := by
  unfold append
  rw [h]

/-! ## While everything works -/

def asNamed (w : RotatingWal) : NamedWal :=
  { dir := w.dir, fileID := w.fileID, fileSize := w.fileSize }

/-- The handle is the open one of the current file. -/
def InStep (w : RotatingWal) : Prop := w.file = ⟨fileName w.fileID, false⟩

theorem inStep_newWAL (dir : Directory) : InStep (newWAL dir) := rfl

theorem room_working {w : RotatingWal} (h : w.InStep) (n : Nat) :
    ∃ w', w.room n Answers.working = (w', true) ∧ w'.InStep ∧ w'.asNamed = w.asNamed.room n := by
  by_cases hfull : w.fileSize + n > maxWALSize
  · have hclosed : w.file.closed = false := by rw [h]
    have hnamed : w.asNamed.room n = w.asNamed.rotate := if_pos hfull
    rw [room, if_pos hfull, hnamed, rotate, hclosed]
    exact ⟨_, rfl, rfl, rfl⟩
  · exact ⟨w, if_neg hfull, h, (if_neg hfull).symm⟩

/-- With a file system that works the log is the one without a handle. -/
theorem append_working {w : RotatingWal} (h : w.InStep) (r : J.Record) :
    (w.append (.working r)).2 = .ok ∧ (w.append (.working r)).1.InStep ∧
      (w.append (.working r)).1.asNamed = w.asNamed.append J r := by
  obtain ⟨w', hroom, hstep, hnamed⟩ := room_working h (4 + 4 + (J.marshal r).length + 4)
  have hwrite : w.append (.working r) = w'.writeRecord (J.encode r) Answers.working :=
    append_of_room hroom
  have hclosed : w'.file.closed = false := by rw [hstep]
  rw [hwrite, NamedWal.append, ← hnamed]
  unfold writeRecord
  rw [hclosed]
  refine ⟨rfl, hstep, ?_⟩
  show (⟨w'.dir.write w'.file.name _, _, _⟩ : NamedWal) = _
  rw [hstep]
  rfl

theorem appendCalls_working (rs : List J.Record) : ∀ {w : RotatingWal}, w.InStep →
    (w.appendCalls (rs.map .working)).2 = List.replicate rs.length .ok ∧
      (w.appendCalls (rs.map .working)).1.InStep ∧
      (w.appendCalls (rs.map .working)).1.asNamed = w.asNamed.appendAll J rs := by
  induction rs with
  | nil => intro w h; exact ⟨rfl, h, rfl⟩
  | cons r rs ih =>
      intro w h
      obtain ⟨hok, hstep, hnamed⟩ := append_working h r
      obtain ⟨hoks, hsteps, hnameds⟩ := ih hstep
      rw [hnamed] at hnameds
      refine ⟨?_, hsteps, hnameds⟩
      show (w.append (.working r)).2 :: _ = _
      rw [hok, hoks]
      rfl

theorem succeeded_working (rs : List J.Record) : ∀ {w : RotatingWal}, w.InStep →
    w.succeeded (rs.map .working) = rs := by
  induction rs with
  | nil => intro w _; rfl
  | cons r rs ih =>
      intro w h
      obtain ⟨hok, hstep, _⟩ := append_working h r
      have hrest := ih hstep
      unfold succeeded at hrest ⊢
      rw [List.map_cons, appendCalls, List.zip_cons_cons, List.filterMap_cons]
      simp only [hok, if_true, hrest]
      rfl

/-- The files hold these records, and the log knows where it is. -/
def Holds (w : RotatingWal) (rs : List J.Record) : Prop :=
  ∃ files : WalFiles, w.asNamed.Names files ∧ files.Holds rs

/--
After these calls the file system works: `Append` of `r` returns `nil`, and opening and
replaying the directory then gives what the log held, the records of the successful
calls, and `r`. There are fewer than a million files, so that their names can be read.
-/
structure Resumes (w : RotatingWal) (cs : List (Call J)) (r : J.Record) : Prop where
  ok : ((w.appendCalls cs).1.append (.working r)).2 = .ok
  replayed : ∀ stored : List J.Record, w.Holds stored →
    ((w.appendCalls cs).1.append (.working r)).1.dir.length < 10 ^ 6 →
    ∃ nw fs, (NamedWal.newWAL ((w.appendCalls cs).1.append (.working r)).1.dir).replay J =
        some (nw, Storage.replay fs) ∧ fs.flatten = plain (stored ++ w.succeeded cs ++ [r])

theorem resumes_of_working {w : RotatingWal} (h : w.InStep) (rs : List J.Record) (r : J.Record) :
    w.Resumes (rs.map .working) r := by
  obtain ⟨_, hsteps, hnameds⟩ := appendCalls_working rs h
  obtain ⟨hok, _, hnamed⟩ := append_working hsteps r
  refine ⟨hok, ?_⟩
  rintro stored ⟨files, hnames, hholds⟩ hfew
  rw [succeeded_working rs h, List.append_assoc]
  generalize (w.appendCalls (rs.map .working)).1.append (.working r) = next at hnamed hfew ⊢
  rw [hnameds] at hnamed
  have hall : next.1.asNamed = w.asNamed.appendAll J (rs ++ [r]) := by
    rw [hnamed, NamedWal.appendAll, NamedWal.appendAll, List.foldl_append]
    rfl
  have hnext := NamedWal.names_appendAll (rs ++ [r]) hnames
  have hheld := hholds.appendAll (rs ++ [r])
  rw [← hall] at hnext
  have hdir : next.1.dir = namedFrom 1 (files.appendAll J (rs ++ [r])).dir := hnext.dir
  rw [hdir, length_namedFrom] at hfew
  rw [hdir]
  have hopened : (WalFiles.newWAL (files.appendAll J (rs ++ [r])).dir).Holds
      (stored ++ (rs ++ [r])) := by
    rw [WalFiles.dir, WalFiles.newWAL_concat]
    exact hheld
  obtain ⟨nw, fs, hreplay, hfs, _⟩ := NamedWal.replay_of_holds hfew hopened
  exact ⟨nw, fs, hreplay, hfs⟩

/-! ## After a rotation has failed -/

theorem file_of_open_fails {w : RotatingWal} {a : Answers} (h : (w.openCurrentFile a).2 = false) :
    (w.openCurrentFile a).1.file = w.file := by
  unfold openCurrentFile at h ⊢
  dsimp only at h ⊢
  by_cases hopen : a.openFile = true
  · rw [if_pos hopen] at h ⊢
    by_cases hstat : a.stat = true
    · rw [if_pos hstat] at h
      exact Bool.noConfusion h
    · rw [if_neg hstat]
  · rw [if_neg hopen]

theorem closed_of_rotation_fails {w : RotatingWal} {a : Answers} (h : (w.rotate a).2 = false) :
    (w.rotate a).1.file.closed = true := by
  unfold rotate at h ⊢
  by_cases hclosed : w.file.closed = true
  · rw [if_pos hclosed]
    exact hclosed
  · rw [if_neg hclosed] at h ⊢
    dsimp only at h ⊢
    by_cases hclose : a.close = true
    · rw [if_pos hclose] at h ⊢
      rw [file_of_open_fails h]
    · rw [if_neg hclose]

theorem writeRecord_ne_errRotation (w : RotatingWal) (buf : Bytes) (a : Answers) :
    (w.writeRecord buf a).2 ≠ .errRotation := by
  unfold writeRecord
  split
  · simp
  · cases a.write with
    | some n => simp
    | none => cases a.sync <;> simp

theorem closed_of_errRotation {w : RotatingWal} {c : Call J} (h : (w.append c).2 = .errRotation) :
    (w.append c).1.file.closed = true := by
  cases hroom : w.room (4 + 4 + (J.marshal c.record).length + 4) c.answers with
  | mk w' fits =>
  cases fits with
  | true =>
      rw [append_of_room hroom] at h
      exact absurd h (writeRecord_ne_errRotation _ _ _)
  | false =>
      rw [append_of_no_room hroom]
      -- the check itself succeeds, so it was the rotation that failed
      unfold room at hroom
      split at hroom
      · have hfail : (w.rotate c.answers).2 = false := by rw [hroom]
        have hclosed := closed_of_rotation_fails hfail
        rw [hroom] at hclosed
        exact hclosed
      · exact Bool.noConfusion (congrArg Prod.snd hroom)

/-- With a closed file `Append` fails, whatever the file system answers, and changes nothing. -/
theorem append_closed {w : RotatingWal} (h : w.file.closed = true) (c : Call J) :
    (w.append c).1 = w ∧ (w.append c).2 ≠ .ok := by
  by_cases hfull : w.fileSize + (4 + 4 + (J.marshal c.record).length + 4) > maxWALSize
  · -- the file is full, and cannot be closed again
    have hrotate : w.rotate c.answers = (w, false) := if_pos h
    rw [append_of_no_room (if_pos hfull |>.trans hrotate)]
    exact ⟨rfl, AppendResult.noConfusion⟩
  · -- the record would fit, but the file is closed
    have hwrite : w.writeRecord (J.encode c.record) c.answers = (w, .errWrite) := if_pos h
    rw [append_of_room (if_neg hfull), hwrite]
    exact ⟨rfl, AppendResult.noConfusion⟩

theorem appendCalls_closed (cs : List (Call J)) : ∀ {w : RotatingWal}, w.file.closed = true →
    (w.appendCalls cs).1 = w ∧ ∀ x ∈ (w.appendCalls cs).2, x ≠ .ok := by
  induction cs with
  | nil => intro w _; exact ⟨rfl, fun x hx => absurd hx (by simp [appendCalls])⟩
  | cons c cs ih =>
      intro w h
      obtain ⟨hsame, hfail⟩ := append_closed h c
      have hrest := ih h
      unfold appendCalls
      dsimp only
      rw [hsame]
      refine ⟨hrest.1, ?_⟩
      intro x hx
      rcases List.mem_cons.mp hx with rfl | hx
      · exact hfail
      · exact hrest.2 x hx

theorem closed_of_failed (cs : List (Call J)) : ∀ {w : RotatingWal},
    .errRotation ∈ (w.appendCalls cs).2 → (w.appendCalls cs).1.file.closed = true := by
  induction cs with
  | nil => intro w h; exact absurd h (by simp [appendCalls])
  | cons c cs ih =>
      intro w h
      rcases List.mem_cons.mp h with hhead | htail
      · have hclosed := closed_of_errRotation hhead.symm
        show ((w.append c).1.appendCalls cs).1.file.closed = true
        rw [(appendCalls_closed cs hclosed).1]
        exact hclosed
      · exact ih htail

/--
**A failed rotation is final.** Whatever the state of the log and the calls, once a call
of `Append` has failed in its rotation, every later call fails, whatever the file system
answers, and leaves the log as it is. So no log resumes after a failed rotation.
-/
theorem failed_rotation_final (w : RotatingWal) (cs : List (Call J))
    (h : .errRotation ∈ (w.appendCalls cs).2) :
    (∀ r : J.Record, ¬ w.Resumes cs r) ∧
      ∀ later : List (Call J), (∀ x ∈ ((w.appendCalls cs).1.appendCalls later).2, x ≠ .ok) ∧
        ((w.appendCalls cs).1.appendCalls later).1 = (w.appendCalls cs).1 := by
  have hclosed := closed_of_failed cs h
  refine ⟨?_, ?_⟩
  · intro r hresumes
    exact (append_closed hclosed _).2 hresumes.ok
  · intro later
    obtain ⟨hsame, hfail⟩ := appendCalls_closed later hclosed
    exact ⟨hfail, hsame⟩

/-- One more call, which finds the file full and cannot open the next. -/
theorem appendCalls_open_fails {w : RotatingWal} {cs : List (Call J)} {r : J.Record}
    (h : (w.appendCalls cs).1.InStep)
    (hfull : (w.appendCalls cs).1.fileSize + (J.encode r).length > maxWALSize) :
    .errRotation ∈ (w.appendCalls (cs ++ [⟨r, Answers.openFails⟩])).2 ∧
      (w.appendCalls (cs ++ [⟨r, Answers.openFails⟩])).1.fileSize =
        (w.appendCalls cs).1.fileSize := by
  rw [appendCalls_append]
  generalize w.appendCalls cs = before at h hfull ⊢
  have hclosed : before.1.file.closed = false := by rw [h]
  have hfails : before.1.append ⟨r, Answers.openFails⟩ =
      ({ before.1 with file := ⟨before.1.file.name, true⟩, fileID := before.1.fileID + 1 },
        .errRotation) := by
    rw [length_encode r] at hfull
    refine append_of_no_room ?_
    rw [room, if_pos hfull, rotate, hclosed]
    rfl
  dsimp only [appendCalls]
  rw [hfails]
  exact ⟨List.mem_append_right _ List.mem_cons_self, rfl⟩

theorem fileSize_replicate (r : J.Record) (n : Nat) : ∀ {w : NamedWal},
    w.fileSize + n * (J.encode r).length ≤ maxWALSize →
    (w.appendAll J (List.replicate n r)).fileSize = w.fileSize + n * (J.encode r).length := by
  have hlen := length_encode r
  induction n with
  | zero => intro w _; simp [NamedWal.appendAll]
  | succ n ih =>
      intro w h
      rw [Nat.succ_mul] at h
      have hroom : w.room (4 + 4 + (J.marshal r).length + 4) = w := if_neg (by omega)
      have hsize : (w.append J r).fileSize = w.fileSize + (J.encode r).length := by
        rw [NamedWal.append, hroom]
      have hrest := ih (w := w.append J r) (by omega)
      show ((w.append J r).appendAll J (List.replicate n r)).fileSize = _
      rw [hrest, hsize, Nat.succ_mul]
      omega

/-- The first file takes what fits into it. -/
theorem filled (r : J.Record) {n : Nat} (h : n * (J.encode r).length ≤ maxWALSize) :
    ((newWAL []).appendCalls ((List.replicate n r).map .working)).1.InStep ∧
      ((newWAL []).appendCalls ((List.replicate n r).map .working)).1.fileSize =
        n * (J.encode r).length := by
  obtain ⟨_, hstep, hnamed⟩ := appendCalls_working (List.replicate n r) (inStep_newWAL [])
  have hfew : ([] : List Bytes).length < 10 ^ 6 := by decide
  have hempty : (newWAL []).asNamed.fileSize = 0 := (NamedWal.names_newWAL hfew).fileSize
  have hsize := congrArg NamedWal.fileSize hnamed
  rw [fileSize_replicate r n (by omega), hempty, Nat.zero_add] at hsize
  exact ⟨hstep, hsize⟩

/-- Calls that succeed, and one that finds no other file. -/
def fillingCalls (n : Nat) (r : J.Record) : List (Call J) :=
  (List.replicate n r).map .working ++ [⟨r, Answers.openFails⟩]

/-- The first file of an empty directory filled, and no second file to be had. -/
theorem filling_fails :
    let full := (newWAL []).appendCalls (fillingCalls 3050402 (digitTerm 1))
    .errRotation ∈ full.2 ∧ full.1.fileSize = 3050402 * 22 := by
  have hlen := length_digitTerm
  obtain ⟨hstep, hsize⟩ := filled (digitTerm 1) (n := 3050402) (by rw [← hlen]; decide)
  obtain ⟨hfailed, hsame⟩ := appendCalls_open_fails (r := digitTerm 1) hstep
    (by rw [hsize, ← hlen]; decide)
  exact ⟨hfailed, hsame.trans (by rw [hsize, ← hlen])⟩

/-- The log of an empty directory, after the call that finds the first file full. -/
theorem failed_rotation_final_full :
    let calls := fillingCalls 3050402 (digitTerm 1)
    .errRotation ∈ ((newWAL []).appendCalls calls).2 ∧
      ∀ r : plainJson.Record, ¬ (newWAL []).Resumes calls r := by
  intro calls
  exact ⟨filling_fails.1, (failed_rotation_final (newWAL []) calls filling_fails.1).1⟩

/--
An empty directory. The calls that fill the first file succeed, the next one cannot open
the second file, and from then on the file system works: the following call fails too.
-/
theorem failed_rotation_first_file :
    let calls := fillingCalls 3050402 (digitTerm 1)
    .errRotation ∈ ((newWAL []).appendCalls calls).2 ∧
      (((newWAL []).appendCalls calls).1.append (.working (digitTerm 2))).2 = .errRotation ∧
      ¬ (newWAL []).Resumes calls (digitTerm 2) := by
  intro calls
  obtain ⟨hfailed, hsize⟩ := filling_fails
  have hclosed := closed_of_failed calls hfailed
  have hnext : (((newWAL []).appendCalls calls).1.append (.working (digitTerm 2))).2 =
      .errRotation := by
    have hfull : ((newWAL []).appendCalls calls).1.fileSize + 22 > maxWALSize := by
      rw [hsize]
      decide
    generalize (newWAL []).appendCalls calls = full at hclosed hfull ⊢
    have hroom : full.1.room 22 Answers.working = (full.1, false) := by
      rw [room, if_pos hfull, rotate, if_pos hclosed]
    exact congrArg Prod.snd (append_of_no_room hroom)
  refine ⟨hfailed, hnext, ?_⟩
  intro hresumes
  rw [hresumes.ok] at hnext
  exact AppendResult.noConfusion hnext

end RotatingWal

end GammaFlow.Storage
