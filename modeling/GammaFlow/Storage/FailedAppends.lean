import GammaFlow.Storage.Corruption

/-!
# Appends that fail

`Append` returns an error when its write does, and leaves in the file whatever part of
the record was written. The callers log the error and go on appending, behind that
part. A replay reads the part as the beginning of a record and whatever follows it as
the rest: the records behind it are lost, and with bad luck with the checksum a record
appears that no call has reported as written.

So it matters what the calls leave in the file: all of the record, some of it, or
nothing. Replay returns exactly the records of the successful calls, whatever the
records are, if and only if nothing is written any more after a part was.
-/

namespace GammaFlow.Storage

open WalFiles

/-- A call of `Append`, and how much of its record was written if it failed. -/
structure Attempt (J : Json) where
  record : J.Record
  failed : Option (Fin (J.encode record).length)

variable {J : Json}

/-- What a call leaves in the file. -/
inductive Left where
  | whole
  | part
  | nothing
  deriving DecidableEq, Repr

namespace Attempt

def left (a : Attempt J) : Left :=
  match a.failed with
  | none => .whole
  | some k => if k.val = 0 then .nothing else .part

def written (a : Attempt J) : Bytes :=
  match a.failed with
  | none => J.encode a.record
  | some k => (J.encode a.record).take k

end Attempt

/-- The records of the calls that returned `nil`. -/
def returned (as : List (Attempt J)) : List J.Record :=
  as.filterMap fun a => if a.failed.isNone then some a.record else none

namespace WalFiles

/-- `Append`, whose write may fail. -/
def attempt (J : Json) (w : WalFiles) (a : Attempt J) : WalFiles :=
  match a.failed with
  | none => w.append J a.record
  | some k => w.fail J a.record k

def attemptAll (J : Json) (w : WalFiles) (as : List (Attempt J)) : WalFiles :=
  as.foldl (fun w a => w.attempt J a) w

end WalFiles

/-- The calls were all made on the first file. -/
def Unrotated (as : List (Attempt J)) : Prop := ((newWAL []).attemptAll J as).older = []

/-- A later `Replay` reads exactly the records of the successful calls, and returns their fold. -/
def Recovers (as : List (Attempt J)) : Prop :=
  let dir := ((newWAL []).attemptAll J as).dir
  readFiles dir = some [(returned as).map fun r => (r.1.recordType, J.marshal r.1)] ∧
    ∃ w, (newWAL dir).replay J = some (w, replay [plain (returned as)])

/-- After a part of a record nothing is written any more. -/
def NothingAfterPart (marks : List Left) : Prop :=
  marks.Pairwise fun a b => a = .part → b = .nothing

instance (marks : List Left) : Decidable (NothingAfterPart marks) :=
  inferInstanceAs (Decidable (List.Pairwise _ _))

/-! ## Calls on one file -/

/-- No call finds the file too full, as its size is believed to be. -/
def RoomFor : Nat → List (Attempt J) → Prop
  | _, [] => True
  | size, a :: as => size + (J.encode a.record).length ≤ maxWALSize ∧
      RoomFor (if a.failed.isNone then size + (J.encode a.record).length else size) as

theorem older_attempt {w : WalFiles} (a : Attempt J) (h : (w.attempt J a).older = []) :
    w.older = [] ∧ w.fileSize + (J.encode a.record).length ≤ maxWALSize := by
  have hlen := length_encode a.record
  by_contra hno
  have hroom : (w.room (4 + 4 + (J.marshal a.record).length + 4)).older ≠ [] := by
    unfold room
    split
    · simp [rotate]
    · intro hold
      exact hno ⟨hold, by omega⟩
  refine hroom ?_
  unfold attempt at h
  split at h <;> exact h

theorem attempt_of_room {w : WalFiles} {a : Attempt J}
    (h : w.fileSize + (J.encode a.record).length ≤ maxWALSize) :
    w.attempt J a = { w with
      file := w.file ++ a.written
      fileSize := if a.failed.isNone then w.fileSize + (J.encode a.record).length else w.fileSize } := by
  have hlen := length_encode a.record
  have hroom : w.room (4 + 4 + (J.marshal a.record).length + 4) = w := if_neg (by omega)
  unfold attempt Attempt.written
  cases a.failed with
  | none => dsimp only; rw [append, hroom]; rfl
  | some k => dsimp only; rw [fail, hroom]; rfl

theorem older_attemptAll (as : List (Attempt J)) : ∀ {w : WalFiles},
    (w.attemptAll J as).older = [] → w.older = [] ∧ RoomFor w.fileSize as := by
  induction as with
  | nil => intro w h; exact ⟨h, trivial⟩
  | cons a as ih =>
      intro w h
      obtain ⟨hold, hfits⟩ := ih (w := w.attempt J a) h
      obtain ⟨hold, hsize⟩ := older_attempt a hold
      rw [attempt_of_room hsize] at hfits
      exact ⟨hold, hsize, hfits⟩

theorem attemptAll_of_roomFor (as : List (Attempt J)) : ∀ {w : WalFiles}, w.older = [] →
    RoomFor w.fileSize as →
    (w.attemptAll J as).older = [] ∧ (w.attemptAll J as).file = w.file ++ as.flatMap Attempt.written := by
  induction as with
  | nil => intro w h _; exact ⟨h, by simp [attemptAll]⟩
  | cons a as ih =>
      intro w h hfits
      obtain ⟨hsize, hfits⟩ := hfits
      have hattempt := attempt_of_room hsize
      have hnext := ih (w := w.attempt J a) (by rw [hattempt]; exact h) (by rw [hattempt]; exact hfits)
      refine ⟨hnext.1, hnext.2.trans ?_⟩
      rw [hattempt, List.flatMap_cons, List.append_assoc]

/-- Calls on one file leave their bytes one after the other. -/
theorem Unrotated.dir {as : List (Attempt J)} (h : Unrotated as) :
    ((newWAL []).attemptAll J as).dir = [as.flatMap Attempt.written] := by
  obtain ⟨hold, hfits⟩ := older_attemptAll as h
  obtain ⟨hold', hfile⟩ := attemptAll_of_roomFor as hold hfits
  rw [WalFiles.dir, hold', hfile]
  rfl

theorem unrotated_of_roomFor {as : List (Attempt J)} (h : RoomFor 0 as) : Unrotated as :=
  (attemptAll_of_roomFor as rfl h).1

/-! ## What a replay reads of them -/

theorem readLoop_encode (r : J.Record) (t : Bytes) : readLoop (J.encode r ++ t) =
    (readLoop t).map ((r.1.recordType, J.marshal r.1) :: ·) := by
  rw [readLoop_of_record (readRecord_encode r t), ← length_encode, List.drop_left]

theorem readLoop_nil : readLoop [] = some [] :=
  readLoop_of_stop (Or.inl (readRecord_ended (by decide)))

/-- A part at the end of the file is not taken for a record. -/
theorem readLoop_take {r : J.Record} {k : Nat} (hk : k < (J.encode r).length) :
    readLoop ((J.encode r).take k) = some [] := by
  apply readLoop_of_stop
  rcases Nat.lt_or_ge k 8 with h8 | h8
  · exact Or.inl (readRecord_ended (by rw [List.length_take]; omega))
  · exact Or.inr (Or.inl (readRecord_torn r.2 h8 hk))

/-- Whole records are read, one after the other. -/
theorem readLoop_of_stores {file : Bytes} {rs : List J.Record} (h : Stores file rs) :
    readLoop file = some (rs.map fun r => (r.1.recordType, J.marshal r.1)) := by
  obtain ⟨t, rfl, ht⟩ := h
  induction rs with
  | nil => exact readLoop_of_stop (Or.inl (readRecord_ended ht))
  | cons r rs ih =>
      have hsplit : encodeAll (r :: rs) = J.encode r ++ encodeAll rs := List.flatMap_cons
      rw [hsplit, List.append_assoc, readLoop_encode, ih]
      rfl

theorem readFiles_of_stores {files : List Bytes} {fs : List (List J.Record)}
    (h : List.Forall₂ Stores files fs) : readFiles files =
      some (fs.map fun rs => rs.map fun r => (r.1.recordType, J.marshal r.1)) := by
  unfold readFiles
  induction h with
  | nil => rfl
  | cons hfile _ ih => rw [List.mapM_cons, readLoop_of_stores hfile, ih]; rfl

/-- The record is among those that a later `Replay` of the directory reads. -/
def Json.ReadsBack (J : Json) (dir : List Bytes) (r : WalRecord) : Prop :=
  ∃ fs, readFiles dir = some fs ∧ r ∈ J.decoded fs.flatten

/-- What a log holds is read back. -/
theorem readsBack_of_holds {w : WalFiles} {rs : List J.Record} (h : w.Holds rs) {r : WalRecord}
    (hr : r ∈ plain rs) : J.ReadsBack w.dir r := by
  obtain ⟨fs, f, hold, hf, rfl⟩ := h
  have hdir : List.Forall₂ Stores w.dir (fs ++ [f]) :=
    List.rel_append hold (List.Forall₂.cons (hf ▸ stores_encodeAll f) List.Forall₂.nil)
  refine ⟨_, readFiles_of_stores hdir, ?_⟩
  rw [← List.map_flatten, Json.decoded, decoded_written]
  simpa using hr

theorem not_readsBack_of_nil {dir : List Bytes} (h : ∀ file ∈ dir, readLoop file = some [])
    (r : WalRecord) : ¬ J.ReadsBack dir r := by
  have hread : readFiles dir = some (dir.map fun _ => []) := by
    unfold readFiles
    induction dir with
    | nil => rfl
    | cons file dir ih =>
        rw [List.mapM_cons, h file List.mem_cons_self,
          ih fun file hfile => h file (List.mem_cons_of_mem _ hfile)]
        rfl
  rintro ⟨fs, hfs, hr⟩
  rw [hread] at hfs
  rw [← Option.some.inj hfs] at hr
  simp [Json.decoded] at hr

theorem recovers_iff {as : List (Attempt J)} (h : Unrotated as) : Recovers as ↔
    readLoop (as.flatMap Attempt.written) =
      some ((returned as).map fun r => (r.1.recordType, J.marshal r.1)) := by
  have hread : ∀ file, readFiles [file] = (readLoop file).map fun rs => [rs] := by
    intro file
    unfold readFiles
    rw [List.mapM_cons, List.mapM_nil]
    cases readLoop file <;> rfl
  unfold Recovers
  dsimp only
  rw [h.dir, hread]
  constructor
  · rintro ⟨hr, _⟩
    obtain ⟨rs, hrs, heq⟩ := Option.map_eq_some_iff.mp hr
    rw [hrs, List.cons.inj heq |>.1]
  · intro hr
    have hstate := replay_map_snd (J := J) (newWAL [as.flatMap Attempt.written])
    have hdir : (newWAL [as.flatMap Attempt.written]).dir = [as.flatMap Attempt.written] := rfl
    rw [hdir, hread, hr, Option.map_some, Option.map_some, List.map_singleton, Json.decoded,
      decoded_written, Option.map_eq_some_iff] at hstate
    obtain ⟨⟨w, r⟩, hw, rfl⟩ := hstate
    exact ⟨by rw [hr]; rfl, w, hw⟩

theorem flatMap_written_of_nothing {as : List (Attempt J)} (h : ∀ a ∈ as, a.left = .nothing) :
    as.flatMap Attempt.written = [] ∧ returned as = [] := by
  induction as with
  | nil => exact ⟨rfl, rfl⟩
  | cons a as ih =>
      obtain ⟨hwritten, hreturned⟩ := ih fun b hb => h b (List.mem_cons_of_mem _ hb)
      have ha := h a List.mem_cons_self
      unfold Attempt.left at ha
      split at ha
      · exact absurd ha (by simp)
      rename_i k hk
      split at ha
      · rename_i h0
        refine ⟨?_, ?_⟩
        · rw [List.flatMap_cons, hwritten, List.append_nil, Attempt.written, hk]
          dsimp only
          rw [h0, List.take_zero]
        · unfold returned at hreturned ⊢
          rw [List.filterMap_cons, hreturned, hk]
          rfl
      · exact absurd ha (by simp)

/-- **Where nothing follows a part, the loop reads the records of the successful calls.** -/
theorem readLoop_of_clean (as : List (Attempt J)) (h : NothingAfterPart (as.map Attempt.left)) :
    readLoop (as.flatMap Attempt.written) =
      some ((returned as).map fun r => (r.1.recordType, J.marshal r.1)) := by
  induction as with
  | nil => exact readLoop_nil
  | cons a as ih =>
      obtain ⟨hhead, htail⟩ := List.pairwise_cons.mp h
      rw [List.flatMap_cons]
      unfold returned
      rw [List.filterMap_cons]
      cases hf : a.failed with
      | none =>
          have hwritten : a.written = J.encode a.record := by rw [Attempt.written, hf]
          rw [hwritten, readLoop_encode, ih htail]
          rfl
      | some k =>
          have hwritten : a.written = (J.encode a.record).take k := by rw [Attempt.written, hf]
          rw [hwritten]
          by_cases h0 : k.val = 0
          · rw [h0, List.take_zero, List.nil_append]
            exact ih htail
          · -- the part is the last thing in the file
            have hpart : a.left = .part := by rw [Attempt.left, hf]; exact if_neg h0
            have hnothing : ∀ b ∈ as, b.left = .nothing :=
              fun b hb => hhead _ (List.mem_map_of_mem hb) hpart
            obtain ⟨hrest, hret⟩ := flatMap_written_of_nothing hnothing
            unfold returned at hret
            rw [hrest, List.append_nil, readLoop_take k.2, hret]
            rfl

/-! ## Records that go wrong -/

/-- The first byte of every term record is also the last byte of this one. -/
def unlucky (J : Json) : J.Record := ⟨.term 382, by rw [J.marshal_term]; decide⟩

def zeroTerm (J : Json) : J.Record := ⟨.term 0, by rw [J.marshal_term]; decide⟩

/-- For each mark a call that leaves it: term `0` if it succeeds, and all of `unlucky` but one byte. -/
def worst (J : Json) : Left → Attempt J
  | .whole => ⟨zeroTerm J, none⟩
  | .nothing => ⟨zeroTerm J, some ⟨0, by rw [length_encode]; omega⟩⟩
  | .part => ⟨unlucky J, some ⟨23, by rw [length_encode, unlucky, J.marshal_term]; decide⟩⟩

theorem encode_zeroTerm (J : Json) : J.encode (zeroTerm J) = frame 1 (termText 0) := by
  rw [Json.encode, zeroTerm, J.marshal_term]; rfl

theorem encode_unlucky (J : Json) : J.encode (unlucky J) = frame 1 (termText 382) := by
  rw [Json.encode, unlucky, J.marshal_term]; rfl

theorem left_worst (m : Left) : (worst J m).left = m := by
  cases m with
  | whole => rfl
  | part => rfl
  | nothing => rfl

theorem written_worst_cons (m : Left) : (m = .nothing ∧ (worst J m).written = []) ∨
    ∃ u, (worst J m).written = 1 :: u := by
  cases m with
  | whole =>
      refine Or.inr ⟨(frame 1 (termText 0)).tail, ?_⟩
      show J.encode (zeroTerm J) = _
      rw [encode_zeroTerm]
      decide +kernel
  | part =>
      refine Or.inr ⟨((frame 1 (termText 382)).take 23).tail, ?_⟩
      show (J.encode (unlucky J)).take 23 = _
      rw [encode_unlucky]
      decide +kernel
  | nothing => exact Or.inl ⟨rfl, rfl⟩

theorem written_part : (worst J .part).written ++ [1] = J.encode (unlucky J) := by
  show (J.encode (unlucky J)).take 23 ++ [1] = _
  rw [encode_unlucky]
  decide +kernel

/-- Whatever is written first begins with the byte that `unlucky` lacks. -/
theorem flatMap_worst_cons {marks : List Left} (h : ∃ m ∈ marks, m ≠ .nothing) :
    ∃ u, (marks.map (worst J)).flatMap Attempt.written = 1 :: u := by
  induction marks with
  | nil => obtain ⟨m, hm, _⟩ := h; exact absurd hm (by simp)
  | cons m marks ih =>
      rw [List.map_cons, List.flatMap_cons]
      rcases written_worst_cons (J := J) m with ⟨rfl, hw⟩ | ⟨u, hw⟩
      · rw [hw, List.nil_append]
        obtain ⟨m', hm', hne⟩ := h
        rcases List.mem_cons.mp hm' with rfl | hm'
        · exact absurd rfl hne
        · exact ih ⟨m', hm', hne⟩
      · exact ⟨_, by rw [hw]; rfl⟩

theorem returned_worst (marks : List Left) :
    ∀ r ∈ returned (marks.map (worst J)), r = zeroTerm J := by
  intro r hr
  obtain ⟨a, ha, hra⟩ := List.mem_filterMap.mp hr
  obtain ⟨m, _, rfl⟩ := List.mem_map.mp ha
  cases m with
  | whole => exact (Option.some.inj hra).symm
  | part => exact absurd hra (by simp [worst])
  | nothing => exact absurd hra (by simp [worst])

/-- **Behind a part, what is written completes a record that no call has written.** -/
theorem readLoop_of_not_clean (marks : List Left) (h : ¬ NothingAfterPart marks) :
    readLoop ((marks.map (worst J)).flatMap Attempt.written) ≠
      some ((returned (marks.map (worst J))).map fun r => (r.1.recordType, J.marshal r.1)) := by
  induction marks with
  | nil => exact absurd List.Pairwise.nil h
  | cons m marks ih =>
      have hcons : NothingAfterPart (m :: marks) ↔
          (∀ b ∈ marks, m = .part → b = .nothing) ∧ NothingAfterPart marks := List.pairwise_cons
      rw [List.map_cons, List.flatMap_cons]
      cases m with
      | whole =>
          have hmarks : ¬ NothingAfterPart marks := fun hc => h (hcons.mpr ⟨by simp, hc⟩)
          intro hread
          refine ih hmarks ?_
          have hwritten : (worst J .whole).written = J.encode (zeroTerm J) := rfl
          rw [hwritten, readLoop_encode] at hread
          obtain ⟨rs, hrs, heq⟩ := Option.map_eq_some_iff.mp hread
          rw [hrs, (List.cons.inj heq).2]
          rfl
      | nothing => exact ih fun hc => h (hcons.mpr ⟨by simp, hc⟩)
      | part =>
          by_cases hnone : ∀ b ∈ marks, b = .nothing
          · refine absurd (hcons.mpr ⟨fun b hb _ => hnone b hb, ?_⟩) h
            exact List.pairwise_iff_forall_sublist.mpr fun hs _ =>
              hnone _ (hs.subset (by simp))
          · have hsome : ∃ b ∈ marks, b ≠ .nothing := by simpa using hnone
            obtain ⟨u, hu⟩ := flatMap_worst_cons (J := J) hsome
            have hsplit : (worst J .part).written ++ 1 :: u = J.encode (unlucky J) ++ u := by
              rw [← written_part, List.append_assoc]
              rfl
            rw [hu, hsplit, readLoop_encode]
            intro hread
            obtain ⟨rs, _, heq⟩ := Option.map_eq_some_iff.mp hread
            -- term `382` was read, and only term `0` was written
            obtain ⟨r, hr, hraw⟩ := List.mem_map.mp (heq ▸ List.mem_cons_self)
            rw [returned_worst _ r hr] at hraw
            have htext := (Prod.mk.inj hraw).2
            rw [zeroTerm, unlucky, J.marshal_term, J.marshal_term] at htext
            exact absurd htext (by decide)

/-- The worst calls need little space. -/
theorem roomFor_worst (as : List (Attempt J)) : ∀ {size n : Nat}, RoomFor size as → 22 * n ≤ size →
    RoomFor (22 * n) ((as.map Attempt.left).map (worst J)) := by
  induction as with
  | nil => intro size n _ _; trivial
  | cons a as ih =>
      intro size n hfits hn
      obtain ⟨hsize, hrest⟩ := hfits
      have hlen := length_encode a.record
      have hshort := J.shortest a.record
      have hmax : maxWALSize = 67108864 := rfl
      have hzero : (J.encode (zeroTerm J)).length = 22 := by rw [encode_zeroTerm]; decide +kernel
      have hunlucky : (J.encode (unlucky J)).length = 24 := by rw [encode_unlucky]; decide +kernel
      rw [List.map_cons, List.map_cons]
      cases hf : a.failed with
      | none =>
          have hleft : a.left = .whole := by rw [Attempt.left, hf]
          rw [hf] at hrest
          rw [hleft]
          refine ⟨?_, ?_⟩
          · show 22 * n + (J.encode (zeroTerm J)).length ≤ maxWALSize
            omega
          · show RoomFor (22 * n + (J.encode (zeroTerm J)).length) _
            rw [hzero]
            exact ih (n := n + 1) hrest (by simp only [Option.isNone_none, if_true]; omega)
      | some k =>
          rw [hf] at hrest
          by_cases h0 : k.val = 0
          · have hleft : a.left = .nothing := by rw [Attempt.left, hf]; exact if_pos h0
            rw [hleft]
            refine ⟨?_, ih hrest hn⟩
            show 22 * n + (J.encode (zeroTerm J)).length ≤ maxWALSize
            omega
          · have hleft : a.left = .part := by rw [Attempt.left, hf]; exact if_neg h0
            rw [hleft]
            refine ⟨?_, ih hrest hn⟩
            show 22 * n + (J.encode (unlucky J)).length ≤ maxWALSize
            -- sixty-four megabytes are no multiple of a smallest record
            omega

/--
**Failed appends.** Take any row of calls on one file. Whatever records such calls are
made with, as long as they leave in the file what these do, all of a record, a part or
nothing, a later replay returns exactly the records of the successful ones, in order,
if and only if nothing is written any more after a part was.
-/
theorem failed_appends_iff {as : List (Attempt J)} (h : Unrotated as) :
    (∀ bs : List (Attempt J), bs.map Attempt.left = as.map Attempt.left → Unrotated bs →
      Recovers bs) ↔ NothingAfterPart (as.map Attempt.left) := by
  constructor
  · intro hall
    by_contra hdirty
    have hleft : (((as.map Attempt.left).map (worst J)).map Attempt.left) = as.map Attempt.left := by
      rw [List.map_map, List.map_map]
      exact List.map_congr_left fun a _ => left_worst a.left
    have hone : Unrotated ((as.map Attempt.left).map (worst J)) :=
      unrotated_of_roomFor (roomFor_worst as (n := 0) (older_attemptAll as h).2 (Nat.zero_le _))
    exact readLoop_of_not_clean _ hdirty ((recovers_iff hone).mp (hall _ hleft hone))
  · intro hclean bs hbs hone
    rw [recovers_iff hone]
    exact readLoop_of_clean bs (by rw [hbs]; exact hclean)

theorem marshal_digit : ∀ t : Fin 10,
    (plainJson.marshal (.term t.val)).length < 2 ^ 32 - 12 := by decide

/-- A term of one digit. -/
def digitTerm (t : Fin 10) : plainJson.Record := ⟨.term t.val, marshal_digit t⟩

theorem length_digitTerm : ∀ t : Fin 10, 22 = (plainJson.encode (digitTerm t)).length := by decide

/-- A call that writes the first `n` of the 22 bytes and fails. -/
def cutShort (t : Fin 10) (n : Fin 22) : Attempt plainJson :=
  ⟨digitTerm t, some (n.cast (length_digitTerm t))⟩

/-- Calls that leave term `1`, nothing of term `2`, term `3` and five bytes of term `4`. -/
def cleanCalls : List (Attempt plainJson) :=
  [⟨digitTerm 1, none⟩, cutShort 2 0, ⟨digitTerm 3, none⟩, cutShort 4 5]

theorem failed_appends_clean : Unrotated cleanCalls ∧ Recovers cleanCalls ∧
    plain (returned cleanCalls) = [.term 1, .term 3] := by
  have hone : Unrotated cleanCalls := by unfold Unrotated; decide +kernel
  exact ⟨hone, (failed_appends_iff hone).mpr (by decide) cleanCalls rfl hone, rfl⟩

/-- Calls that leave nine bytes of term `1` and then term `2`. -/
def dirtyCalls : List (Attempt plainJson) := [cutShort 1 9, ⟨digitTerm 2, none⟩]

/-- The second call succeeds, and the replay finds nothing. -/
theorem failed_append_loses_next : Unrotated dirtyCalls ∧
    plain (returned dirtyCalls) = [.term 2] ∧
    (∃ w, (newWAL ((newWAL []).attemptAll plainJson dirtyCalls).dir).replay plainJson =
      some (w, Replayed.zero)) ∧ ¬ Recovers dirtyCalls := by
  have hone : Unrotated dirtyCalls := by unfold Unrotated; decide +kernel
  have hreplay : ((newWAL ((newWAL []).attemptAll plainJson dirtyCalls).dir).replay plainJson).map
      Prod.snd = some Replayed.zero := by decide +kernel
  obtain ⟨⟨w, r⟩, hw, rfl⟩ := Option.map_eq_some_iff.mp hreplay
  refine ⟨hone, rfl, ⟨w, hw⟩, ?_⟩
  rintro ⟨_, w', hw'⟩
  rw [hw] at hw'
  have hterm := congrArg Replayed.term (Prod.mk.inj (Option.some.inj hw')).2
  exact absurd hterm (by decide)

end GammaFlow.Storage
