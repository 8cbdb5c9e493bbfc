import Mathlib.Data.List.TakeWhile
import GammaFlow.Storage.Replay
import GammaFlow.Storage.WalFiles

/-!
# The directory of a write-ahead log

`WalFiles` takes the order of the files as given. In the source the order is in their
names: `NewWAL` and `Replay` list the directory, scan an id from each name and sort by
it. A name has six digits or more, and `Sscanf` reads six, so the names are read back
as long as there are fewer than a million files.

Until then the directory behaves as `WalFiles` does (`Names`), and over any number of
sessions `Replay` returns the last term, the last vote and all entries in order.
-/

namespace GammaFlow.Storage

/-! ## Names -/

abbrev Name := List Char

/-- `Sprintf` with `walFilePattern`. -/
def fileName (id : Nat) : Name :=
  "wal_".toList ++ ((Nat.toDigits 10 id).leftpad 6 '0' ++ ".log".toList)

/--
The prefix check of `listWALFiles` and `Sscanf` with `walFilePattern`: up to six digits,
then the extension, then anything. Signs and blanks, which `Sscanf` would accept before
the digits, are in no name that `fileName` makes.
-/
def scanName (name : Name) : Option Nat :=
  if "wal_".toList.isPrefixOf name then
    let rest := name.drop 4
    let digits := (rest.take 6).takeWhile Char.isDigit
    if digits ≠ [] ∧ ".log".toList.isPrefixOf (rest.drop digits.length) then
      some (Nat.ofDigitChars 10 digits 0)
    else none
  else none

theorem ofDigitChars_zeros (k : Nat) : Nat.ofDigitChars 10 (List.replicate k '0') 0 = 0 := by
  induction k with
  | zero => rfl
  | succ k ih => rw [List.replicate_succ, Nat.ofDigitChars_cons]; exact ih

/-- Leading zeros do not count. -/
theorem ofDigitChars_leftpad (id : Nat) :
    Nat.ofDigitChars 10 ((Nat.toDigits 10 id).leftpad 6 '0') 0 = id := by
  rw [List.leftpad, Nat.ofDigitChars_append, ofDigitChars_zeros, Nat.ofDigitChars_ten_toDigits]

theorem fileName_injective : Function.Injective fileName := by
  intro id id' h
  have hdigits := List.append_cancel_right (List.append_cancel_left h)
  rw [← ofDigitChars_leftpad id, ← ofDigitChars_leftpad id', hdigits]

theorem isDigit_of_mem_leftpad {id : Nat} {c : Char}
    (h : c ∈ (Nat.toDigits 10 id).leftpad 6 '0') : c.isDigit = true := by
  rcases List.mem_append.mp h with h | h
  · rw [(List.mem_replicate.mp h).2]; decide
  · exact Nat.isDigit_of_mem_toDigits (by omega) (by omega) h

/-- Below a million, the id can be read off the name. -/
theorem scanName_fileName {id : Nat} (h : id < 10 ^ 6) : scanName (fileName id) = some id := by
  have hlen : ((Nat.toDigits 10 id).leftpad 6 '0').length = 6 := by
    have := (Nat.length_toDigits_le_iff (by omega) (by omega)).mpr h
    rw [List.leftpad, List.length_append, List.length_replicate]
    omega
  have hdigits : ((Nat.toDigits 10 id).leftpad 6 '0').takeWhile Char.isDigit =
      (Nat.toDigits 10 id).leftpad 6 '0' :=
    List.takeWhile_eq_self_iff.mpr fun c => isDigit_of_mem_leftpad
  unfold scanName fileName
  have hfour : "wal_".toList.length = 4 := by decide
  rw [if_pos (List.isPrefixOf_iff_prefix.mpr (List.prefix_append _ _)), List.drop_left' hfour]
  dsimp only
  rw [List.take_left' hlen, hdigits, if_pos, ofDigitChars_leftpad]
  refine ⟨?_, ?_⟩
  · intro hnil
    rw [hnil] at hlen
    exact absurd hlen (by decide)
  · rw [List.drop_left]
    decide

example : scanName (fileName (10 ^ 6)) = none := by decide

/-! ## Files with names -/

abbrev Directory := List (Name × Bytes)

namespace Directory

/-- The bytes of a file; none if there is no such file. -/
def content : Directory → Name → Bytes
  | [], _ => []
  | (n, f) :: dir, name => if n = name then f else content dir name

/-- Give a file other bytes, or create it with them. -/
def write : Directory → Name → Bytes → Directory
  | [], name, bytes => [(name, bytes)]
  | (n, f) :: dir, name, bytes =>
      if n = name then (n, bytes) :: dir else (n, f) :: write dir name bytes

/-- Open with `O_CREATE`. -/
def create (dir : Directory) (name : Name) : Directory :=
  if name ∈ dir.map Prod.fst then dir else dir.write name []

/-- `listWALFiles`: ids and names, by id. -/
def listWALFiles (dir : Directory) : List (Nat × Name) :=
  (dir.filterMap fun e => (scanName e.1).map fun id => (id, e.1)).mergeSort fun a b => a.1 ≤ b.1

end Directory

/-- The `WAL` of the source. -/
structure NamedWal where
  dir : Directory
  fileID : Nat
  fileSize : Nat

namespace NamedWal

def openCurrentFile (dir : Directory) (fileID : Nat) : NamedWal :=
  let dir := dir.create (fileName fileID)
  { dir := dir, fileID := fileID, fileSize := (dir.content (fileName fileID)).length }

def newWAL (dir : Directory) : NamedWal :=
  match dir.listWALFiles.getLast? with
  | none => openCurrentFile dir 1
  | some file => openCurrentFile dir file.1

def rotate (w : NamedWal) : NamedWal := openCurrentFile w.dir (w.fileID + 1)

/-- The rotation check of `Append`. -/
def room (w : NamedWal) (recordSize : Nat) : NamedWal :=
  if w.fileSize + recordSize > maxWALSize then w.rotate else w

def append (J : Json) (w : NamedWal) (r : WalRecord) : NamedWal :=
  let w := w.room (4 + 4 + (J.marshal r).length + 4)
  let name := fileName w.fileID
  { w with
    dir := w.dir.write name (w.dir.content name ++ J.encode r)
    fileSize := w.fileSize + (J.encode r).length }

def appendAll (J : Json) (w : NamedWal) (rs : List J.Record) : NamedWal :=
  rs.foldl (fun (w : NamedWal) (r : J.Record) => w.append J r.1) w

/-- The loop of `Replay` over the files that were listed. -/
def replayFiles (J : Json) : List (Nat × Name) → Directory → Replayed →
    Option (Directory × Replayed)
  | [], dir, acc => some (dir, acc)
  | (_, name) :: files, dir, acc => do
      let (r, file) ← J.replayFile (dir.content name)
      replayFiles J files (dir.write name file) (acc.merge r)

def replay (J : Json) (w : NamedWal) : Option (NamedWal × Replayed) :=
  (replayFiles J w.dir.listWALFiles w.dir Replayed.zero).map fun (dir, r) => ({ w with dir := dir }, r)

/-- Open, replay, append, close: the directory that is left. -/
def session (J : Json) (dir : Directory) (rs : List J.Record) : Option Directory :=
  ((newWAL dir).replay J).map fun (w, _) => (w.appendAll J rs).dir

def sessions (J : Json) (dir : Directory) (ss : List (List J.Record)) : Option Directory :=
  ss.foldlM (session J) dir

end NamedWal

/-! ## The files of a log, named -/

/-- Files with the names of consecutive ids. -/
def namedFrom : Nat → List Bytes → Directory
  | _, [] => []
  | id, f :: fs => (fileName id, f) :: namedFrom (id + 1) fs

@[simp] theorem length_namedFrom (fs : List Bytes) : ∀ id, (namedFrom id fs).length = fs.length := by
  induction fs with
  | nil => intro id; rfl
  | cons f fs ih => intro id; rw [namedFrom, List.length_cons, ih, List.length_cons]

theorem fileName_ne {id k : Nat} (h : id ≠ k) : fileName id ≠ fileName k :=
  fun heq => h (fileName_injective heq)

theorem content_namedFrom (done : List Bytes) (f : Bytes) (todo : List Bytes) : ∀ id,
    (namedFrom id (done ++ f :: todo)).content (fileName (id + done.length)) = f := by
  induction done with
  | nil => intro id; exact if_pos rfl
  | cons g done ih =>
      intro id
      rw [List.cons_append, namedFrom, Directory.content, List.length_cons,
        if_neg (fileName_ne (by omega)), show id + (done.length + 1) = id + 1 + done.length by omega]
      exact ih (id + 1)

theorem write_namedFrom (done : List Bytes) (f g : Bytes) (todo : List Bytes) : ∀ id,
    (namedFrom id (done ++ f :: todo)).write (fileName (id + done.length)) g =
      namedFrom id (done ++ g :: todo) := by
  induction done with
  | nil => intro id; exact if_pos rfl
  | cons e done ih =>
      intro id
      rw [List.cons_append, namedFrom, Directory.write, List.length_cons,
        if_neg (fileName_ne (by omega)), show id + (done.length + 1) = id + 1 + done.length by omega,
        ih (id + 1)]
      rfl

/-- The next id is new. -/
theorem write_namedFrom_next (fs : List Bytes) (g : Bytes) : ∀ id,
    (namedFrom id fs).write (fileName (id + fs.length)) g = namedFrom id (fs ++ [g]) := by
  induction fs with
  | nil => intro id; rfl
  | cons e fs ih =>
      intro id
      rw [namedFrom, Directory.write, List.length_cons, if_neg (fileName_ne (by omega)),
        show id + (fs.length + 1) = id + 1 + fs.length by omega, ih (id + 1)]
      rfl

theorem mem_names_namedFrom (fs : List Bytes) : ∀ {id k : Nat},
    fileName k ∈ (namedFrom id fs).map Prod.fst ↔ id ≤ k ∧ k < id + fs.length := by
  induction fs with
  | nil => intro id k; simp [namedFrom]
  | cons f fs ih =>
      intro id k
      rw [namedFrom, List.map_cons, List.mem_cons, ih, List.length_cons, fileName_injective.eq_iff]
      omega

theorem listWALFiles_namedFrom {fs : List Bytes} (h : fs.length < 10 ^ 6) :
    (namedFrom 1 fs).listWALFiles =
      (List.range' 1 fs.length).map fun id => (id, fileName id) := by
  have hscan : ∀ (fs : List Bytes) (id : Nat), id + fs.length ≤ 10 ^ 6 →
      ((namedFrom id fs).filterMap fun e => (scanName e.1).map fun id => (id, e.1)) =
        (List.range' id fs.length).map fun id => (id, fileName id) := by
    intro fs
    induction fs with
    | nil => intro id _; rfl
    | cons f fs ih =>
        intro id hid
        rw [List.length_cons] at hid
        rw [namedFrom, List.filterMap_cons, scanName_fileName (by omega)]
        simp only [Option.map_some]
        rw [ih (id + 1) (by omega), List.length_cons, List.range'_succ, List.map_cons]
  rw [Directory.listWALFiles, hscan fs 1 (by omega), List.mergeSort_of_pairwise]
  rw [List.pairwise_map]
  refine List.pairwise_le_range'.imp ?_
  intro a b hab
  exact decide_eq_true hab

/-! ## The directory refines the files -/

namespace NamedWal

variable {J : Json}

/-- The named files are the files, and the open one is the last. -/
structure Names (nw : NamedWal) (w : WalFiles) : Prop where
  dir : nw.dir = namedFrom 1 w.dir
  fileID : nw.fileID = w.dir.length
  fileSize : nw.fileSize = w.fileSize

theorem names_open_last (older : List Bytes) (f : Bytes) :
    Names (openCurrentFile (namedFrom 1 (older ++ [f])) (older.length + 1))
      { older := older, file := f, fileSize := f.length } := by
  have hcreate : (namedFrom 1 (older ++ [f])).create (fileName (older.length + 1)) =
      namedFrom 1 (older ++ [f]) :=
    if_pos ((mem_names_namedFrom _).mpr ⟨by omega, by simp⟩)
  have hcontent := content_namedFrom older f [] 1
  rw [Nat.add_comm 1] at hcontent
  refine ⟨hcreate, ?_, ?_⟩
  · rw [WalFiles.dir, List.length_append]
    rfl
  · unfold openCurrentFile
    dsimp only
    rw [hcreate, hcontent]

theorem names_open_next (files : List Bytes) :
    Names (openCurrentFile (namedFrom 1 files) (files.length + 1))
      { older := files, file := [], fileSize := 0 } := by
  have hcreate : (namedFrom 1 files).create (fileName (files.length + 1)) =
      namedFrom 1 (files ++ [[]]) := by
    unfold Directory.create
    rw [if_neg, Nat.add_comm, write_namedFrom_next]
    rw [mem_names_namedFrom]
    omega
  have hcontent := content_namedFrom files [] [] 1
  rw [Nat.add_comm 1] at hcontent
  refine ⟨hcreate, ?_, ?_⟩
  · rw [WalFiles.dir, List.length_append]
    rfl
  · unfold openCurrentFile
    dsimp only
    rw [hcreate, hcontent]
    rfl

theorem names_newWAL {files : List Bytes} (h : files.length < 10 ^ 6) :
    Names (newWAL (namedFrom 1 files)) (WalFiles.newWAL files) := by
  unfold newWAL
  rw [listWALFiles_namedFrom h]
  rcases List.eq_nil_or_concat' files with rfl | ⟨older, f, rfl⟩
  · exact names_open_next []
  · rw [List.length_append, List.length_singleton, List.range'_1_concat, List.map_append,
      List.map_singleton, List.getLast?_concat, WalFiles.newWAL_concat, Nat.add_comm 1]
    exact names_open_last older f

theorem names_append {nw : NamedWal} {w : WalFiles} (h : Names nw w) (r : WalRecord) :
    Names (nw.append J r) (w.append J r) := by
  have hroom : ∀ n, Names (nw.room n) (w.room n) := by
    intro n
    unfold room WalFiles.room
    rw [h.fileSize]
    split
    · unfold rotate
      rw [h.dir, h.fileID]
      exact names_open_next w.dir
    · exact h
  unfold append WalFiles.append
  have hr := hroom (4 + 4 + (J.marshal r).length + 4)
  generalize nw.room (4 + 4 + (J.marshal r).length + 4) = nw at hr
  generalize w.room (4 + 4 + (J.marshal r).length + 4) = w at hr
  have hlen : w.dir.length = 1 + w.older.length := by
    rw [WalFiles.dir, List.length_append, List.length_singleton, Nat.add_comm]
  refine ⟨?_, ?_, ?_⟩
  · dsimp only
    rw [hr.fileID, hr.dir, hlen, WalFiles.dir, content_namedFrom, write_namedFrom]
    rfl
  · rw [hr.fileID, hlen]
    simp [WalFiles.dir, Nat.add_comm]
  · dsimp only
    rw [hr.fileSize]

theorem names_appendAll (rs : List J.Record) : ∀ {nw : NamedWal} {w : WalFiles},
    Names nw w → Names (nw.appendAll J rs) (w.appendAll J rs) := by
  induction rs with
  | nil => intro nw w h; exact h
  | cons r rs ih => intro nw w h; exact ih (names_append h r)

/-- The loop over the names is the loop over the files. -/
theorem replayFiles_namedFrom (todo : List Bytes) : ∀ (done : List Bytes) (acc : Replayed),
    replayFiles J ((List.range' (1 + done.length) todo.length).map fun id => (id, fileName id))
      (namedFrom 1 (done ++ todo)) acc =
    (todo.mapM J.replayFile).map fun out =>
      (namedFrom 1 (done ++ out.map Prod.snd), out.foldl (fun acc r => acc.merge r.1) acc) := by
  induction todo with
  | nil => intro done acc; rfl
  | cons f todo ih =>
      intro done acc
      rw [List.length_cons, List.range'_succ, List.map_cons, replayFiles, content_namedFrom,
        List.mapM_cons]
      cases hf : J.replayFile f with
      | none => rfl
      | some out =>
          obtain ⟨r, g⟩ := out
          have hnext := ih (done ++ [g]) (acc.merge r)
          rw [List.append_assoc, List.singleton_append, List.length_append, List.length_singleton,
            ← Nat.add_assoc] at hnext
          simp only [Option.bind_eq_bind, Option.bind_some]
          rw [write_namedFrom, hnext]
          cases todo.mapM J.replayFile with
          | none => rfl
          | some outs => simp

theorem length_of_mapM {α β : Type} {f : α → Option β} : ∀ {l : List α} {out : List β},
    l.mapM f = some out → out.length = l.length := by
  intro l
  induction l with
  | nil => intro out h; rw [← Option.some.inj h]; rfl
  | cons a l ih =>
      intro out h
      simp only [List.mapM_cons, Option.bind_eq_bind, Option.bind_eq_some_iff] at h
      obtain ⟨b, _, bs, hbs, h⟩ := h
      rw [← Option.some.inj h, List.length_cons, ih hbs, List.length_cons]

theorem names_replay {nw : NamedWal} {w : WalFiles} (h : Names nw w) (hw : w.dir.length < 10 ^ 6)
    {w' : WalFiles} {r : Replayed} (hr : w.replay J = some (w', r)) :
    ∃ nw', nw.replay J = some (nw', r) ∧ Names nw' w' := by
  rw [WalFiles.replay_eq_mapM] at hr
  cases hout : w.dir.mapM J.replayFile with
  | none => rw [hout] at hr; exact absurd hr (by simp)
  | some out =>
      rw [hout] at hr
      obtain ⟨rfl, rfl⟩ := Prod.mk.inj (Option.some.inj hr)
      have hloop := replayFiles_namedFrom (J := J) w.dir [] Replayed.zero
      rw [hout, List.length_nil, Nat.add_zero, List.nil_append, Option.map_some] at hloop
      have hlen : out.length = w.dir.length := length_of_mapM hout
      have hdir : (out.map Prod.snd).dropLast ++ [(out.map Prod.snd).getLast?.getD []] =
          out.map Prod.snd := by
        rcases List.eq_nil_or_concat' out with rfl | ⟨front, last, rfl⟩
        · exact absurd hlen (by simp [WalFiles.dir])
        · simp
      refine ⟨{ nw with dir := namedFrom 1 (out.map Prod.snd) }, ?_, ?_⟩
      · unfold replay
        rw [h.dir, listWALFiles_namedFrom hw, hloop]
        rfl
      · refine ⟨?_, ?_, h.fileSize⟩
        · rw [WalFiles.dir, hdir]
        · rw [WalFiles.dir, hdir, List.length_map, hlen]
          exact h.fileID

end NamedWal

/-! ## Directories of whole records -/

variable {J : Json}

/-- Every file holds whole records and nothing else. -/
def Directory.Sound (J : Json) (dir : Directory) : Prop :=
  ∀ e ∈ dir, ∃ rs : List J.Record, e.2 = encodeAll rs

namespace Directory

theorem Sound.content {dir : Directory} (h : dir.Sound J) (name : Name) :
    ∃ rs : List J.Record, dir.content name = encodeAll rs := by
  induction dir with
  | nil => exact ⟨[], rfl⟩
  | cons e dir ih =>
      unfold Directory.content
      split
      · exact h e List.mem_cons_self
      · exact ih fun e he => h e (List.mem_cons_of_mem _ he)

theorem Sound.write {dir : Directory} (h : dir.Sound J) (name : Name) (rs : List J.Record) :
    (dir.write name (encodeAll rs)).Sound J := by
  induction dir with
  | nil =>
      intro e he
      rw [List.mem_singleton.mp he]
      exact ⟨rs, rfl⟩
  | cons d dir ih =>
      have htail : Sound J dir := fun e he => h e (List.mem_cons_of_mem _ he)
      unfold Directory.write
      split
      · intro e he
        rcases List.mem_cons.mp he with rfl | he
        · exact ⟨rs, rfl⟩
        · exact htail e he
      · intro e he
        rcases List.mem_cons.mp he with rfl | he
        · exact h _ List.mem_cons_self
        · exact ih htail e he

theorem length_write (dir : Directory) (name : Name) (bytes : Bytes) :
    dir.length ≤ (dir.write name bytes).length := by
  induction dir with
  | nil => exact Nat.zero_le _
  | cons d dir ih =>
      unfold Directory.write
      split
      · exact Nat.le_refl _
      · exact Nat.succ_le_succ ih

/-- Writing a file back changes nothing. -/
theorem write_content {dir : Directory} {name : Name} (h : name ∈ dir.map Prod.fst) :
    dir.write name (dir.content name) = dir := by
  induction dir with
  | nil => exact absurd h (by simp)
  | cons d dir ih =>
      obtain ⟨n, f⟩ := d
      rw [Directory.write, Directory.content]
      by_cases hn : n = name
      · rw [if_pos hn, if_pos hn]
      · rw [if_neg hn, if_neg hn, ih]
        rcases List.mem_cons.mp h with heq | h
        · exact absurd heq.symm hn
        · exact h

theorem mem_names_of_listWALFiles {dir : Directory} {f : Nat × Name} (h : f ∈ dir.listWALFiles) :
    f.2 ∈ dir.map Prod.fst := by
  unfold listWALFiles at h
  rw [List.mem_mergeSort] at h
  obtain ⟨e, he, hf⟩ := List.mem_filterMap.mp h
  obtain ⟨id, _, rfl⟩ := Option.map_eq_some_iff.mp hf
  exact List.mem_map_of_mem he

end Directory

namespace NamedWal

theorem sound_openCurrentFile {dir : Directory} (h : dir.Sound J) (id : Nat) :
    (openCurrentFile dir id).dir.Sound J ∧ dir.length ≤ (openCurrentFile dir id).dir.length := by
  unfold openCurrentFile Directory.create
  dsimp only
  split
  · exact ⟨h, Nat.le_refl _⟩
  · exact ⟨h.write _ [], Directory.length_write _ _ _⟩

theorem sound_newWAL {dir : Directory} (h : dir.Sound J) :
    (newWAL dir).dir.Sound J ∧ dir.length ≤ (newWAL dir).dir.length := by
  unfold newWAL
  split
  · exact sound_openCurrentFile h _
  · exact sound_openCurrentFile h _

theorem sound_append {w : NamedWal} (h : w.dir.Sound J) (r : J.Record) :
    (w.append J r).dir.Sound J ∧ w.dir.length ≤ (w.append J r).dir.length := by
  have hroom : ∀ n, (w.room n).dir.Sound J ∧ w.dir.length ≤ (w.room n).dir.length := by
    intro n
    unfold room
    split
    · exact sound_openCurrentFile h _
    · exact ⟨h, Nat.le_refl _⟩
  obtain ⟨hs, hle⟩ := hroom (4 + 4 + (J.marshal r).length + 4)
  unfold append
  dsimp only
  generalize w.room (4 + 4 + (J.marshal r).length + 4) = w' at hs hle
  obtain ⟨rs, hrs⟩ := hs.content (fileName w'.fileID)
  rw [hrs, ← encodeAll_singleton, ← encodeAll_append]
  exact ⟨hs.write _ _, Nat.le_trans hle (Directory.length_write _ _ _)⟩

theorem sound_appendAll (rs : List J.Record) : ∀ {w : NamedWal}, w.dir.Sound J →
    (w.appendAll J rs).dir.Sound J ∧ w.dir.length ≤ (w.appendAll J rs).dir.length := by
  induction rs with
  | nil => intro w h; exact ⟨h, Nat.le_refl _⟩
  | cons r rs ih =>
      intro w h
      obtain ⟨hs, hle⟩ := sound_append h r
      obtain ⟨hs', hle'⟩ := ih hs
      exact ⟨hs', Nat.le_trans hle hle'⟩

/-- Over whole records `Replay` returns, and leaves the directory alone. -/
theorem replay_of_sound {w : NamedWal} (h : w.dir.Sound J) : ∃ r, w.replay J = some (w, r) := by
  have hloop : ∀ (files : List (Nat × Name)) (acc : Replayed),
      (∀ f ∈ files, f.2 ∈ w.dir.map Prod.fst) → ∃ r, replayFiles J files w.dir acc = some (w.dir, r) := by
    intro files
    induction files with
    | nil => intro acc _; exact ⟨acc, rfl⟩
    | cons f files ih =>
        intro acc hf
        obtain ⟨rs, hrs⟩ := h.content f.2
        have hfile := (stores_encodeAll rs).replayFile
        rw [← hrs] at hfile
        obtain ⟨r, hr⟩ := ih (acc.merge (Storage.replayFile (plain rs)))
          fun g hg => hf g (List.mem_cons_of_mem _ hg)
        refine ⟨r, ?_⟩
        rw [replayFiles, hfile]
        simp only [Option.bind_eq_bind, Option.bind_some]
        rw [Directory.write_content (hf f List.mem_cons_self)]
        exact hr
  obtain ⟨r, hr⟩ := hloop w.dir.listWALFiles Replayed.zero
    fun f hf => Directory.mem_names_of_listWALFiles hf
  refine ⟨r, ?_⟩
  rw [replay, hr]
  rfl

/-- What the sessions so far have left: too many files, or the records in order. -/
structure Keeps (dir : Directory) (rs : List J.Record) : Prop where
  sound : dir.Sound J
  records : 10 ^ 6 ≤ dir.length ∨
    ∃ files, dir = namedFrom 1 files ∧ WalFiles.Holds (WalFiles.newWAL files) rs

/-- Opening and replaying what was kept. -/
theorem replay_of_holds {files : List Bytes} {rs : List J.Record} (hlen : files.length < 10 ^ 6)
    (h : WalFiles.Holds (WalFiles.newWAL files) rs) :
    ∃ nw fs, (newWAL (namedFrom 1 files)).replay J = some (nw, Storage.replay fs) ∧
      fs.flatten = plain rs ∧ Names nw (WalFiles.newWAL files) := by
  obtain ⟨fs, f, hold, hf, rfl⟩ := id h
  have hreplay := WalFiles.replay_of_stores hold (hf ▸ (stores_encodeAll f).replayFile)
  have hdir : (WalFiles.newWAL files).dir.length < 10 ^ 6 := by
    rcases List.eq_nil_or_concat' files with rfl | ⟨older, g, rfl⟩
    · decide
    · rw [WalFiles.newWAL_concat]; exact hlen
  obtain ⟨nw, hnw, hnames⟩ := names_replay (names_newWAL hlen) hdir hreplay
  exact ⟨nw, _, hnw, flatten_plain fs f, hnames⟩

theorem keeps_session {dir : Directory} {rs : List J.Record} (h : Keeps dir rs)
    (ss : List J.Record) : ∃ dir', session J dir ss = some dir' ∧ Keeps dir' (rs ++ ss) := by
  obtain ⟨hnew, hle⟩ := sound_newWAL h.sound
  obtain ⟨r, hr⟩ := replay_of_sound hnew
  obtain ⟨hsound, hle'⟩ := sound_appendAll ss hnew
  refine ⟨((newWAL dir).appendAll J ss).dir, by rw [session, hr]; rfl, hsound, ?_⟩
  by_cases hmany : 10 ^ 6 ≤ dir.length
  · exact Or.inl (Nat.le_trans hmany (Nat.le_trans hle hle'))
  rcases h.records with hmany' | ⟨files, rfl, hholds⟩
  · exact absurd hmany' hmany
  rw [length_namedFrom] at hmany
  have hnames := names_appendAll ss (names_newWAL (Nat.not_le.mp hmany))
  exact Or.inr ⟨_, hnames.dir, by
    rw [WalFiles.dir, WalFiles.newWAL_concat]; exact hholds.appendAll ss⟩

theorem keeps_sessions (ss : List (List J.Record)) : ∀ {dir : Directory} {rs : List J.Record},
    Keeps dir rs → ∃ dir', sessions J dir ss = some dir' ∧ Keeps dir' (rs ++ ss.flatten) := by
  induction ss with
  | nil => intro dir rs h; exact ⟨dir, rfl, by simpa using h⟩
  | cons s ss ih =>
      intro dir rs h
      obtain ⟨dir₁, h₁, hk⟩ := keeps_session h s
      obtain ⟨dir', h', hk'⟩ := ih hk
      refine ⟨dir', ?_, by rw [List.flatten_cons, ← List.append_assoc]; exact hk'⟩
      unfold sessions at h' ⊢
      rw [List.foldlM_cons, h₁]
      exact h'

theorem keeps_nil : Keeps ([] : Directory) ([] : List J.Record) :=
  ⟨fun _ h => absurd h (by simp), Or.inr ⟨[], rfl, WalFiles.holds_newWAL⟩⟩

/--
**Round trip.** Records whose terms do not fall and whose votes are for someone are
appended to an empty directory over any number of sessions. The sessions run through,
and while there are fewer than a million files, opening the directory once more and
replaying it returns the last term, the last vote and all entries in order.
-/
theorem sessions_round_trip (J : Json) (ss : List (List J.Record))
    (hterms : TermsRise (plain ss.flatten))
    (hvotes : ∀ v ∈ (plain ss.flatten).filterMap WalRecord.vote?, v ≠ "") :
    ∃ dir, sessions J [] ss = some dir ∧ (dir.length < 10 ^ 6 → ∃ w r,
      (newWAL dir).replay J = some (w, r) ∧ r.term = lastTerm (plain ss.flatten) ∧
      r.votedFor = lastVote (plain ss.flatten) ∧
      r.entries = (plain ss.flatten).filterMap WalRecord.entry?) := by
  obtain ⟨dir, hdir, hk⟩ := keeps_sessions ss (keeps_nil (J := J))
  rw [List.nil_append] at hk
  refine ⟨dir, hdir, ?_⟩
  intro hfew
  rcases hk.records with hmany | ⟨files, rfl, hholds⟩
  · omega
  rw [length_namedFrom] at hfew
  obtain ⟨w, fs, hreplay, hfs, _⟩ := replay_of_holds hfew hholds
  rw [← hfs] at hterms hvotes ⊢
  exact ⟨w, _, hreplay, replay_term hterms, replay_votedFor hvotes, replay_entries fs⟩

/-- Two sessions: a vote in the first, an entry and another term in the second. -/
def twoSessions : List (List plainJson.Record) :=
  [[⟨.term 1, by decide⟩, ⟨.vote "a" 1, by decide⟩],
    [⟨.entry ⟨1, 1, [7]⟩, by decide⟩, ⟨.term 2, by decide⟩]]

theorem sessions_round_trip_two : ∃ dir, sessions plainJson [] twoSessions = some dir ∧
    dir.length < 10 ^ 6 ∧ ∃ w, (newWAL dir).replay plainJson = some (w, ⟨2, "a", [⟨1, 1, [7]⟩]⟩) := by
  obtain ⟨dir, hdir, h⟩ := sessions_round_trip plainJson twoSessions (by decide) (by decide)
  have hlen : dir.length < 10 ^ 6 := by
    have hcount : (sessions plainJson [] twoSessions).map List.length = some 1 := by decide +kernel
    rw [hdir] at hcount
    rw [Option.some.inj hcount]
    decide
  obtain ⟨w, ⟨_, _, _⟩, hw, rfl, rfl, rfl⟩ := h hlen
  exact ⟨dir, hdir, hlen, w, hw⟩

end NamedWal

end GammaFlow.Storage
