import Mathlib.Data.List.Chain
import GammaFlow.Storage.WalFiles

/-!
# Replaying damaged files

What a file is worth is what it begins with: the whole records with the right checksum
that come before anything else. `records` says which these are without any of the
loop's arithmetic.

`replayFile` computes `payloadLen + 4` and `8 + payloadLen + 4` in 32 bits. The first
sum overflows for a header that announces nearly `2 ^ 32` bytes, and the slice behind it
is out of range; the second makes `validOffset` too small, and the truncation takes good
records with it. Nothing else can go wrong in one file: `replayFile_faithful_iff`.

Over several files something else does. `replayFile` reports no damage, so `Replay`
goes on with the next file: `replay_stops_iff`.
-/

namespace GammaFlow.Storage

/-! ## The records a file begins with -/

/-- A record as it lies in a file: its type and its payload. -/
abbrev RawRecord := Nat × Bytes

def RawRecord.frame (r : RawRecord) : Bytes := Storage.frame r.1 r.2

/-- What the header can express. -/
def RawRecord.Valid (r : RawRecord) : Prop := r.1 < 2 ^ 32 ∧ r.2.length < 2 ^ 32

/-- The record that the bytes begin with, if they begin with a whole and valid one. -/
def firstRecord (rest : Bytes) : Option RawRecord :=
  let payloadLen := uint32 (rest.drop 4)
  let r : RawRecord := (uint32 rest, (rest.drop 8).take payloadLen)
  if r.2.length = payloadLen ∧ r.frame <+: rest then some r else none

theorem firstRecord_eq_some {rest : Bytes} {r : RawRecord} :
    firstRecord rest = some r ↔ r.Valid ∧ r.frame <+: rest := by
  unfold firstRecord
  dsimp only
  constructor
  · intro h
    split at h
    · rename_i hr
      rw [← Option.some.inj h]
      exact ⟨⟨uint32_lt _, by rw [hr.1]; exact uint32_lt _⟩, hr.2⟩
    · exact absurd h (by simp)
  · rintro ⟨⟨htype, hlen⟩, u, rfl⟩
    obtain ⟨t, p⟩ := r
    have h₁ : uint32 (RawRecord.frame (t, p) ++ u) = t := by
      unfold RawRecord.frame Storage.frame header
      simp only [List.append_assoc]
      exact uint32_le32 htype _
    have h₂ : uint32 ((RawRecord.frame (t, p) ++ u).drop 4) = p.length := by
      unfold RawRecord.frame Storage.frame header
      simp only [List.append_assoc]
      rw [List.drop_left' (length_le32 _)]
      exact uint32_le32 hlen _
    have h₃ : ((RawRecord.frame (t, p) ++ u).drop 8).take p.length = p := by
      unfold RawRecord.frame Storage.frame
      simp only [List.append_assoc]
      rw [List.drop_left' (length_header _ _), List.take_left]
    rw [h₁, h₂, h₃, if_pos ⟨rfl, List.prefix_append _ _⟩]

theorem firstRecord_frame {r : RawRecord} (h : r.Valid) (u : Bytes) :
    firstRecord (r.frame ++ u) = some r :=
  firstRecord_eq_some.mpr ⟨h, List.prefix_append _ _⟩

theorem length_rawFrame (r : RawRecord) : r.frame.length = 8 + r.2.length + 4 := length_frame _ _

/-- The records that a file begins with, and what follows them. -/
def leading (file : Bytes) : List RawRecord × Bytes :=
  match h : firstRecord file with
  | none => ([], file)
  | some r =>
      have := (firstRecord_eq_some.mp h).2.length_le
      have := length_rawFrame r
      let next := leading (file.drop r.frame.length)
      (r :: next.1, next.2)
termination_by file.length
decreasing_by simp only [List.length_drop]; omega

def records (file : Bytes) : List RawRecord := (leading file).1

def remainder (file : Bytes) : Bytes := (leading file).2

theorem leading_of_none {file : Bytes} (h : firstRecord file = none) : leading file = ([], file) := by
  rw [leading]
  split <;> simp_all

theorem leading_of_some {file : Bytes} {r : RawRecord} (h : firstRecord file = some r) :
    leading file =
      (r :: records (file.drop r.frame.length), remainder (file.drop r.frame.length)) := by
  unfold records remainder
  rw [leading]
  split <;> simp_all

theorem leading_frame {r : RawRecord} (h : r.Valid) (u : Bytes) :
    leading (r.frame ++ u) = (r :: records u, remainder u) := by
  rw [leading_of_some (firstRecord_frame h u), List.drop_left]

theorem records_frame {r : RawRecord} (h : r.Valid) (u : Bytes) :
    records (r.frame ++ u) = r :: records u := by
  rw [records, leading_frame h]

theorem remainder_frame {r : RawRecord} (h : r.Valid) (u : Bytes) :
    remainder (r.frame ++ u) = remainder u := by
  rw [remainder, leading_frame h]

theorem records_of_none {rest : Bytes} (h : firstRecord rest = none) : records rest = [] := by
  rw [records, leading_of_none h]

theorem remainder_of_none {rest : Bytes} (h : firstRecord rest = none) : remainder rest = rest := by
  rw [remainder, leading_of_none h]

/-- Induction over the records that a file begins with. -/
theorem leading_induction {motive : Bytes → Prop}
    (step : ∀ (r : RawRecord) (u : Bytes), r.Valid → motive u → motive (r.frame ++ u))
    (last : ∀ rest, firstRecord rest = none → motive rest) (file : Bytes) : motive file := by
  induction hn : file.length using Nat.strong_induction_on generalizing file with
  | _ n ih =>
      cases h : firstRecord file with
      | none => exact last file h
      | some r =>
          obtain ⟨hvalid, u, rfl⟩ := firstRecord_eq_some.mp h
          refine step r u hvalid (ih u.length ?_ u rfl)
          rw [← hn, List.length_append, length_rawFrame]
          omega

/-- What `records` and `remainder` mean: the longest row of frames at the front. -/
theorem leading_spec (file : Bytes) :
    file = (records file).flatMap RawRecord.frame ++ remainder file ∧
      (∀ r ∈ records file, r.Valid) ∧ firstRecord (remainder file) = none := by
  induction file using leading_induction with
  | step r u hr ih =>
      obtain ⟨hsplit, hvalid, hnone⟩ := ih
      rw [records_frame hr, remainder_frame hr]
      refine ⟨?_, ?_, hnone⟩
      · rw [List.flatMap_cons, List.append_assoc, ← hsplit]
      · intro x hx
        rcases List.mem_cons.mp hx with rfl | hx
        · exact hr
        · exact hvalid x hx
  | last rest h =>
      rw [records_of_none h, remainder_of_none h]
      exact ⟨rfl, fun _ h => absurd h (by simp), h⟩

/-! ## One turn of the loop -/

/-- The 32-bit sum for payload and checksum overflows, and what it comes to is there. -/
def Overflows (rest : Bytes) : Prop :=
  8 ≤ rest.length ∧ 2 ^ 32 ≤ uint32 (rest.drop 4) + 4 ∧
    uint32 (rest.drop 4) + 12 ≤ 2 ^ 32 + rest.length

instance (rest : Bytes) : Decidable (Overflows rest) :=
  inferInstanceAs (Decidable (_ ∧ _ ∧ _))

theorem readRecord_overflows {rest : Bytes} (h : Overflows rest) : readRecord rest = .outOfRange := by
  obtain ⟨h8, hover, hlen⟩ := h
  have hlt := uint32_lt (rest.drop 4)
  have hhead : uint32 ((rest.take 8).drop 4) = uint32 (rest.drop 4) := by
    rw [List.drop_take]
    exact uint32_take _
  unfold readRecord
  rw [if_neg (by omega)]
  dsimp only
  rw [hhead, List.length_take, List.length_drop, if_neg (by omega), if_pos (by omega)]

theorem overflows_of_outOfRange {rest : Bytes} (h : readRecord rest = .outOfRange) :
    Overflows rest := by
  have hlt := uint32_lt (rest.drop 4)
  have hhead : uint32 ((rest.take 8).drop 4) = uint32 (rest.drop 4) := by
    rw [List.drop_take]
    exact uint32_take _
  unfold readRecord at h
  dsimp only at h
  split_ifs at h with hended hshort hrange hsum
  rw [hhead] at hrange hshort
  rw [List.length_take, List.length_drop] at hshort
  exact ⟨by omega, by omega, by omega⟩

theorem readRecord_of_first {rest : Bytes} {r : RawRecord} (h : firstRecord rest = some r)
    (hlen : r.2.length < 2 ^ 32 - 4) : readRecord rest = .record r.1 r.2 := by
  obtain ⟨⟨htype, _⟩, u, rfl⟩ := firstRecord_eq_some.mp h
  exact readRecord_frame htype hlen u

theorem overflows_of_first {rest : Bytes} {r : RawRecord} (h : firstRecord rest = some r)
    (hlen : 2 ^ 32 - 4 ≤ r.2.length) : Overflows rest := by
  obtain ⟨⟨_, hlt⟩, u, rfl⟩ := firstRecord_eq_some.mp h
  have hann : uint32 ((r.frame ++ u).drop 4) = r.2.length := by
    unfold RawRecord.frame Storage.frame header
    simp only [List.append_assoc]
    rw [List.drop_left' (length_le32 _)]
    exact uint32_le32 hlt _
  have hframe := length_rawFrame r
  refine ⟨?_, ?_, ?_⟩
  · rw [List.length_append]; omega
  · rw [hann]; omega
  · rw [hann, List.length_append]; omega

/-- Where no whole record is left, the loop ends, quietly or with a truncation, or panics. -/
theorem readRecord_of_none {rest : Bytes} (h : firstRecord rest = none) (hsafe : ¬ Overflows rest) :
    if rest.length < 8 then readRecord rest = .ended
    else readRecord rest = .incomplete ∨ readRecord rest = .mismatch := by
  split
  · rename_i hshort
    exact readRecord_ended hshort
  · rename_i h8
    cases hread : readRecord rest with
    | ended =>
        unfold readRecord at hread
        rw [if_neg h8] at hread
        dsimp only at hread
        split_ifs at hread
    | incomplete => exact Or.inl rfl
    | mismatch => exact Or.inr rfl
    | outOfRange => exact absurd (overflows_of_outOfRange hread) hsafe
    | record t p =>
        obtain ⟨u, rfl⟩ := eq_frame_of_readRecord hread
        obtain ⟨htype, hlen⟩ := lt_of_readRecord hread
        have hfirst := firstRecord_frame (r := (t, p)) ⟨htype, hlen⟩ u
        unfold RawRecord.frame at hfirst
        rw [hfirst] at h
        exact absurd h (by simp)

/-! ## The loop over a file -/

variable {J : Json}

/-- The records that the loop of `replayFile` gets to the `switch`, unless it panics. -/
def readLoop (rest : Bytes) : Option (List RawRecord) :=
  match h : readRecord rest with
  | .outOfRange => none
  | .record recordType payload =>
      have := length_of_readRecord h
      (readLoop (rest.drop (8 + payload.length + 4))).map ((recordType, payload) :: ·)
  | _ => some []
termination_by rest.length
decreasing_by simp only [List.length_drop]; omega

/-- The accumulators after some records. -/
def Replayed.applyAll (J : Json) (acc : Replayed) (rs : List RawRecord) : Replayed :=
  rs.foldl (fun acc r => acc.applyPayload J r.1 r.2) acc

theorem readLoop_of_record {rest payload : Bytes} {recordType : Nat}
    (h : readRecord rest = .record recordType payload) :
    readLoop rest =
      (readLoop (rest.drop (8 + payload.length + 4))).map ((recordType, payload) :: ·) := by
  rw [readLoop]
  split <;> simp_all

theorem readLoop_of_outOfRange {rest : Bytes} (h : readRecord rest = .outOfRange) :
    readLoop rest = none := by
  rw [readLoop]
  split <;> simp_all

theorem readLoop_of_stop {rest : Bytes} (h : readRecord rest = .ended ∨
    readRecord rest = .incomplete ∨ readRecord rest = .mismatch) : readLoop rest = some [] := by
  rw [readLoop]
  split <;> simp_all

theorem replayLoop_of_outOfRange {rest : Bytes} (h : readRecord rest = .outOfRange) (offset : Nat)
    (acc : Replayed) : replayLoop J rest offset acc = none := by
  rw [replayLoop]
  split <;> simp_all

/-- **What the loop returns is made of the records it reads.** -/
theorem replayLoop_map_fst (rest : Bytes) : ∀ (offset : Nat) (acc : Replayed),
    (replayLoop J rest offset acc).map Prod.fst = (readLoop rest).map (acc.applyAll J) := by
  induction hn : rest.length using Nat.strong_induction_on generalizing rest with
  | _ n ih =>
      intro offset acc
      cases h : readRecord rest with
      | ended => rw [replayLoop_of_ended h, readLoop_of_stop (Or.inl h)]; rfl
      | incomplete =>
          rw [replayLoop_of_damaged (Or.inl h), readLoop_of_stop (Or.inr (Or.inl h))]; rfl
      | mismatch =>
          rw [replayLoop_of_damaged (Or.inr h), readLoop_of_stop (Or.inr (Or.inr h))]; rfl
      | outOfRange => rw [replayLoop_of_outOfRange h, readLoop_of_outOfRange h]; rfl
      | record t p =>
          have hlen := length_of_readRecord h
          rw [replayLoop_of_record h, readLoop_of_record h,
            ih _ (by rw [List.length_drop]; omega) _ rfl, Option.map_map]
          rfl

/-- No slice expression is out of range on the way through the file. -/
structure Safe (file : Bytes) : Prop where
  /-- The records leave room for the checksum in 32 bits. -/
  sizes : ∀ r ∈ records file, r.2.length < 2 ^ 32 - 4
  /-- So does what is announced behind them, or there is too little to notice. -/
  header : ¬ Overflows (remainder file)

theorem safe_of_none {rest : Bytes} (h : firstRecord rest = none) :
    Safe rest ↔ ¬ Overflows rest := by
  constructor
  · intro hs
    have hheader := hs.header
    rwa [remainder_of_none h] at hheader
  · intro hs
    refine ⟨?_, by rwa [remainder_of_none h]⟩
    rw [records_of_none h]
    exact fun _ h => absurd h (by simp)

theorem safe_frame {r : RawRecord} (hr : r.Valid) (u : Bytes) :
    Safe (r.frame ++ u) ↔ r.2.length < 2 ^ 32 - 4 ∧ Safe u := by
  constructor
  · intro hs
    have hsizes := hs.sizes
    have hheader := hs.header
    rw [records_frame hr, List.forall_mem_cons] at hsizes
    rw [remainder_frame hr] at hheader
    exact ⟨hsizes.1, hsizes.2, hheader⟩
  · rintro ⟨hlen, hs⟩
    refine ⟨?_, by rw [remainder_frame hr]; exact hs.header⟩
    rw [records_frame hr, List.forall_mem_cons]
    exact ⟨hlen, hs.sizes⟩

/-- The loop reads the records that the file begins with, or panics. -/
theorem readLoop_eq (file : Bytes) :
    (Safe file → readLoop file = some (records file)) ∧ (¬ Safe file → readLoop file = none) := by
  induction file using leading_induction with
  | step r u hr ih =>
      rw [safe_frame hr]
      have hfirst := firstRecord_frame hr u
      by_cases hlen : r.2.length < 2 ^ 32 - 4
      · have hread := readLoop_of_record (readRecord_of_first hfirst hlen)
        rw [← length_rawFrame, List.drop_left] at hread
        refine ⟨?_, ?_⟩
        · rintro ⟨_, hs⟩
          rw [hread, ih.1 hs, records_frame hr]
          rfl
        · intro hs
          rw [hread, ih.2 fun hu => hs ⟨hlen, hu⟩]
          rfl
      · refine ⟨fun hs => absurd hs.1 hlen, fun _ => ?_⟩
        exact readLoop_of_outOfRange (readRecord_overflows (overflows_of_first hfirst (by omega)))
  | last rest h =>
      rw [safe_of_none h]
      refine ⟨?_, ?_⟩
      · intro hs
        have hstop := readRecord_of_none h hs
        rw [records_of_none h]
        apply readLoop_of_stop
        split at hstop
        · exact Or.inl hstop
        · exact Or.inr hstop
      · intro hs
        exact readLoop_of_outOfRange (readRecord_overflows (not_not.mp hs))

/-! ## The truncation -/

/-- How far `validOffset` is advanced, by a 32-bit sum each time. -/
def advance (offset : Nat) (rs : List RawRecord) : Nat :=
  rs.foldl (fun offset r => offset + (8 + r.2.length + 4) % 2 ^ 32) offset

theorem advance_le (rs : List RawRecord) : ∀ offset,
    advance offset rs ≤ offset + (rs.flatMap RawRecord.frame).length := by
  induction rs with
  | nil => intro offset; exact Nat.le_refl _
  | cons r rs ih =>
      intro offset
      have h := ih (offset + (8 + r.2.length + 4) % 2 ^ 32)
      have hmod := Nat.mod_le (8 + r.2.length + 4) (2 ^ 32)
      rw [List.flatMap_cons, List.length_append, length_rawFrame]
      unfold advance at h ⊢
      rw [List.foldl_cons]
      omega

/-- `validOffset` is where the records end if and only if none of the sums overflowed. -/
theorem advance_eq_iff (rs : List RawRecord) : ∀ offset,
    advance offset rs = offset + (rs.flatMap RawRecord.frame).length ↔
      ∀ r ∈ rs, r.2.length < 2 ^ 32 - 12 := by
  induction rs with
  | nil => intro offset; simp [advance]
  | cons r rs ih =>
      intro offset
      have hle := advance_le rs (offset + (8 + r.2.length + 4) % 2 ^ 32)
      have hiff := ih (offset + (8 + r.2.length + 4) % 2 ^ 32)
      have hmod := Nat.mod_le (8 + r.2.length + 4) (2 ^ 32)
      have hcons : advance offset (r :: rs) =
        advance (offset + (8 + r.2.length + 4) % 2 ^ 32) rs := rfl
      rw [List.flatMap_cons, List.length_append, length_rawFrame, List.forall_mem_cons, ← hiff, hcons]
      constructor
      · intro h
        exact ⟨by omega, by omega⟩
      · rintro ⟨h₁, h₂⟩
        have := Nat.mod_eq_of_lt (show 8 + r.2.length + 4 < 2 ^ 32 by omega)
        omega

theorem replayLoop_of_safe (file : Bytes) : Safe file → ∀ (offset : Nat) (acc : Replayed),
    replayLoop J file offset acc = some (acc.applyAll J (records file),
      if (remainder file).length < 8 then none else some (advance offset (records file))) := by
  induction file using leading_induction with
  | step r u hr ih =>
      intro hs offset acc
      obtain ⟨hlen, hu⟩ := (safe_frame hr u).mp hs
      have hread := replayLoop_of_record (J := J)
        (readRecord_of_first (firstRecord_frame hr u) hlen) offset acc
      rw [← length_rawFrame, List.drop_left] at hread
      rw [hread, ih hu, records_frame hr, remainder_frame hr, length_rawFrame]
      rfl
  | last rest h =>
      intro hs offset acc
      have hstop := readRecord_of_none h ((safe_of_none h).mp hs)
      rw [records_of_none h, remainder_of_none h]
      split at hstop
      · rename_i hshort
        rw [if_pos hshort]
        exact replayLoop_of_ended hstop _ _
      · rename_i hlong
        rw [if_neg hlong]
        exact replayLoop_of_damaged hstop _ _

/-! ## One file -/

/-- `replayFile` returns, with the records that the file begins with, and leaves them there. -/
def Json.Faithful (J : Json) (file : Bytes) : Prop :=
  ∃ file', J.replayFile file = some (Replayed.zero.applyAll J (records file), file') ∧
    (records file).flatMap RawRecord.frame <+: file'

/-- None of the 32-bit sums that matter overflows. -/
structure Benign (file : Bytes) : Prop extends Safe file where
  /-- If the file is truncated, then where its records end. -/
  offsets : (remainder file).length < 8 ∨ ∀ r ∈ records file, r.2.length < 2 ^ 32 - 12

/-- `replayFile` returns the records of a safe file; the file may lose some of them. -/
theorem replayFile_of_safe {file : Bytes} (h : Safe file) :
    J.replayFile file = some (Replayed.zero.applyAll J (records file),
      if (remainder file).length < 8 then file else file.take (advance 0 (records file))) := by
  unfold Json.replayFile
  rw [replayLoop_of_safe file h]
  split <;> rfl

theorem replayFile_of_not_safe {file : Bytes} (h : ¬ Safe file) : J.replayFile file = none := by
  have hnone := replayLoop_map_fst (J := J) file 0 Replayed.zero
  rw [(readLoop_eq file).2 h, Option.map_none, Option.map_eq_none_iff] at hnone
  unfold Json.replayFile
  rw [hnone]
  rfl

/--
**Replay of arbitrary bytes.** `replayFile` does not panic, returns the fold of exactly
the records that the file begins with and leaves these in the file, if and only if none
of its 32-bit sums overflows where it matters.
-/
theorem replayFile_faithful_iff (J : Json) (file : Bytes) : J.Faithful file ↔ Benign file := by
  have hsplit := (leading_spec file).1
  constructor
  · rintro ⟨file', hfile, hintact⟩
    have hs : Safe file := by
      by_contra hno
      rw [replayFile_of_not_safe hno] at hfile
      exact absurd hfile (by simp)
    refine ⟨hs, ?_⟩
    rw [replayFile_of_safe hs] at hfile
    obtain ⟨-, rfl⟩ := Prod.mk.inj (Option.some.inj hfile)
    split at hintact
    · rename_i hshort
      exact Or.inl hshort
    · -- a file cut too early no longer has all the records
      right
      have hle := advance_le (records file) 0
      have hlen := hintact.length_le
      rw [List.length_take] at hlen
      exact (advance_eq_iff (records file) 0).mp (by omega)
  · rintro ⟨hs, hoff⟩
    refine ⟨_, replayFile_of_safe hs, ?_⟩
    split
    · exact ⟨remainder file, hsplit.symm⟩
    · rename_i hlong
      have hall := hoff.resolve_left hlong
      rw [(advance_eq_iff (records file) 0).mpr hall, Nat.zero_add]
      have hfront : (records file).flatMap RawRecord.frame <+: file := ⟨remainder file, hsplit.symm⟩
      exact ⟨[], (List.append_nil _).trans (List.prefix_iff_eq_take.mp hfront)⟩

/-- Eight bytes that announce `2 ^ 32 - 4` more. The loop asks for none of them and panics. -/
theorem huge_length_panics : records [1, 0, 0, 0, 252, 255, 255, 255] = [] ∧
    plainJson.replayFile [1, 0, 0, 0, 252, 255, 255, 255] = none ∧
    ¬ plainJson.Faithful [1, 0, 0, 0, 252, 255, 255, 255] := by
  have hnone : firstRecord [1, 0, 0, 0, 252, 255, 255, 255] = none := by decide +kernel
  have hsafe : ¬ Safe [1, 0, 0, 0, 252, 255, 255, 255] := by
    rw [safe_of_none hnone]
    decide
  refine ⟨records_of_none hnone, replayFile_of_not_safe hsafe, ?_⟩
  rintro ⟨file', hfile, _⟩
  rw [replayFile_of_not_safe hsafe] at hfile
  exact absurd hfile (by simp)

/-! ## Several files -/

/-- The records that the `switch` makes something of. -/
def Json.decoded (J : Json) (rs : List RawRecord) : List WalRecord :=
  rs.filterMap fun r => J.decode r.1 r.2

theorem applyAll_eq (rs : List RawRecord) : ∀ acc : Replayed,
    acc.applyAll J rs = (J.decoded rs).foldl Replayed.applyRecord acc := by
  induction rs with
  | nil => intro acc; rfl
  | cons r rs ih =>
      intro acc
      show (acc.applyPayload J r.1 r.2).applyAll J rs = _
      unfold Json.decoded at ih ⊢
      rw [ih, List.filterMap_cons, Replayed.applyPayload]
      cases J.decode r.1 r.2 with
      | none => rfl
      | some x => rfl

/-- The records that `Replay` gets to the `switch`, file by file, unless it panics. -/
def readFiles (dir : List Bytes) : Option (List (List RawRecord)) := dir.mapM readLoop

theorem replayFile_map_fst (file : Bytes) :
    (J.replayFile file).map Prod.fst = (readLoop file).map fun rs => replayFile (J.decoded rs) := by
  have h := replayLoop_map_fst (J := J) file 0 Replayed.zero
  unfold Json.replayFile
  rw [Option.map_map]
  refine Eq.trans ?_ (h.trans ?_)
  · rfl
  · congr 1
    funext rs
    exact applyAll_eq rs _

/-- Passes over a list that agree at every element agree as a whole. -/
theorem map_mapM_congr {α β γ δ : Type} {f : α → Option β} {h : α → Option γ} {g : β → δ}
    {k : γ → δ} (hp : ∀ x, (f x).map g = (h x).map k) (xs : List α) :
    (xs.mapM f).map (List.map g) = (xs.mapM h).map (List.map k) := by
  induction xs with
  | nil => rfl
  | cons x xs ih =>
      have hx := hp x
      rw [List.mapM_cons, List.mapM_cons]
      cases hr : h x with
      | none =>
          rw [hr, Option.map_none, Option.map_eq_none_iff] at hx
          rw [hx]
          rfl
      | some c =>
          rw [hr, Option.map_some, Option.map_eq_some_iff] at hx
          obtain ⟨b, hb, hgk⟩ := hx
          rw [hb]
          cases hrs : xs.mapM h with
          | none =>
              rw [hrs, Option.map_none, Option.map_eq_none_iff] at ih
              rw [ih]
              rfl
          | some cs =>
              rw [hrs, Option.map_some, Option.map_eq_some_iff] at ih
              obtain ⟨bs, hbs, hgks⟩ := ih
              rw [hbs]
              simp [hgk, hgks]

/-- **What `Replay` returns is made of the records it reads.** -/
theorem replay_map_snd (w : WalFiles) : (w.replay J).map Prod.snd =
    (readFiles w.dir).map fun fs => replay (fs.map J.decoded) := by
  have h := congrArg (Option.map (List.foldl Replayed.merge Replayed.zero))
    (map_mapM_congr (replayFile_map_fst (J := J)) w.dir)
  rw [Option.map_map, Option.map_map] at h
  rw [WalFiles.replay_eq_mapM, Option.map_map]
  refine Eq.trans ?_ (h.trans ?_)
  · congr 1
    funext out
    simp [List.foldl_map]
  · congr 1
    funext fs
    rw [replay_eq_foldl_merge, List.map_map]
    rfl

/-- The files up to the first one in which something follows the records, with that one. -/
def upToDamage : List Bytes → List Bytes
  | [] => []
  | f :: fs => if remainder f = [] then f :: upToDamage fs else [f]

/-- The files after it. -/
def behindDamage : List Bytes → List Bytes
  | [] => []
  | f :: fs => if remainder f = [] then behindDamage fs else fs

theorem upToDamage_append_behindDamage (dir : List Bytes) :
    upToDamage dir ++ behindDamage dir = dir := by
  induction dir with
  | nil => rfl
  | cons f fs ih =>
      unfold upToDamage behindDamage
      split
      · rw [List.cons_append, ih]
      · rfl

theorem flatten_records (dir : List Bytes) : (dir.map records).flatten =
    (upToDamage dir).flatMap records ++ (behindDamage dir).flatMap records := by
  conv_lhs => rw [← upToDamage_append_behindDamage dir]
  rw [List.map_append, List.flatten_append, ← List.flatMap_def, ← List.flatMap_def]

/--
`Replay` returns, with the state built from the records before the first damage, and
these are all the records it has read.
-/
def Json.StopsAtDamage (J : Json) (dir : List Bytes) : Prop :=
  (∃ w, (WalFiles.newWAL dir).replay J =
    some (w, replay ((upToDamage dir).map fun f => J.decoded (records f)))) ∧
  (readFiles dir).map List.flatten = some ((upToDamage dir).flatMap records)

theorem readFiles_of_safe {dir : List Bytes} (h : ∀ f ∈ dir, Safe f) :
    readFiles dir = some (dir.map records) := by
  unfold readFiles
  induction dir with
  | nil => rfl
  | cons f fs ih =>
      rw [List.mapM_cons, (readLoop_eq f).1 (h f List.mem_cons_self),
        ih fun g hg => h g (List.mem_cons_of_mem _ hg)]
      rfl

theorem safe_of_readFiles {dir : List Bytes} : ∀ {fs : List (List RawRecord)},
    readFiles dir = some fs → ∀ f ∈ dir, Safe f := by
  unfold readFiles
  induction dir with
  | nil => intro fs _ f hf; exact absurd hf (by simp)
  | cons g dir ih =>
      intro fs h f hf
      simp only [List.mapM_cons, Option.bind_eq_bind, Option.bind_eq_some_iff] at h
      obtain ⟨rs, hrs, rest, hrest, _⟩ := h
      rcases List.mem_cons.mp hf with rfl | hf
      · by_contra hno
        rw [(readLoop_eq f).2 hno] at hrs
        exact absurd hrs (by simp)
      · exact ih hrest f hf

theorem readFiles_newWAL (dir : List Bytes) :
    (readFiles (WalFiles.newWAL dir).dir).map (fun fs => replay (fs.map J.decoded)) =
      (readFiles dir).map fun fs => replay (fs.map J.decoded) := by
  rcases List.eq_nil_or_concat' dir with rfl | ⟨older, f, rfl⟩
  · have h : readLoop [] = some [] := readLoop_of_stop (Or.inl (readRecord_ended (by decide)))
    unfold readFiles
    simp [WalFiles.newWAL, WalFiles.dir, h]
    rfl
  · rw [WalFiles.newWAL_concat]
    rfl

/-- Files without records make no difference. -/
theorem replay_append_silent (fs gs : List (List WalRecord)) (h : ∀ g ∈ gs, g = []) :
    replay (fs ++ gs) = replay fs := by
  have hmerge : ∀ acc : Replayed, acc.merge (replayFile []) = acc := by
    intro acc
    simp [Replayed.merge, replayFile, Replayed.zero]
  unfold replay
  rw [List.foldl_append]
  generalize List.foldl _ Replayed.zero fs = acc
  induction gs with
  | nil => rfl
  | cons g gs ih =>
      rw [List.foldl_cons, h g List.mem_cons_self, hmerge]
      exact ih fun g hg => h g (List.mem_cons_of_mem _ hg)

theorem decoded_written (rs : List J.Record) :
    (rs.map fun r => (r.1.recordType, J.marshal r.1)).filterMap (fun r => J.decode r.1 r.2) =
      plain rs := by
  rw [List.filterMap_map]
  induction rs with
  | nil => rfl
  | cons r rs ih =>
      rw [List.filterMap_cons, Function.comp_apply, J.decode_marshal, ih]
      rfl

/-- Each index follows the one before, in the order they were written. -/
def Consecutive (indices : List Nat) : Prop := indices.IsChain fun a b => b = a + 1

/--
**Where `Replay` stops.** It returns the state built from exactly the records before the
first damage if and only if no file makes it panic and no file behind the damaged one
begins with a record. Entries that were written with consecutive indices then come back
with consecutive indices.
-/
theorem replay_stops_iff (J : Json) (dir : List Bytes) :
    (J.StopsAtDamage dir ↔
      (∀ f ∈ dir, Safe f) ∧ ∀ f ∈ behindDamage dir, records f = []) ∧
    (J.StopsAtDamage dir → ∀ written : List J.Record,
      (upToDamage dir).flatMap records <+: written.map (fun r => (r.1.recordType, J.marshal r.1)) →
      Consecutive (((plain written).filterMap WalRecord.entry?).map EntryRecord.index) →
      ∃ w r, (WalFiles.newWAL dir).replay J = some (w, r) ∧
        Consecutive (r.entries.map EntryRecord.index)) := by
  have hstate := (replay_map_snd (J := J) (WalFiles.newWAL dir)).trans (readFiles_newWAL dir)
  refine ⟨⟨?_, ?_⟩, ?_⟩
  · rintro ⟨_, hread⟩
    obtain ⟨fs, hfs, hflat⟩ := Option.map_eq_some_iff.mp hread
    have hsafe := safe_of_readFiles hfs
    refine ⟨hsafe, ?_⟩
    obtain rfl := Option.some.inj (hfs.symm.trans (readFiles_of_safe hsafe))
    -- all records are read, so nothing is left for the files behind the damage
    rw [flatten_records] at hflat
    exact List.flatMap_eq_nil_iff.mp (List.append_cancel_left (hflat.trans (List.append_nil _).symm))
  · rintro ⟨hsafe, hnone⟩
    have hread := readFiles_of_safe hsafe
    rw [hread, Option.map_some, Option.map_eq_some_iff] at hstate
    obtain ⟨⟨w, r⟩, hw, hr⟩ := hstate
    dsimp only at hr
    refine ⟨⟨w, ?_⟩, ?_⟩
    · rw [hw, hr]
      conv_lhs => rw [← upToDamage_append_behindDamage dir]
      rw [List.map_map, List.map_append, replay_append_silent]
      · rfl
      · intro g hg
        obtain ⟨f, hf, rfl⟩ := List.mem_map.mp hg
        simp [hnone f hf, Json.decoded]
    · rw [hread, Option.map_some, flatten_records, List.flatMap_eq_nil_iff.mpr hnone,
        List.append_nil]
  · rintro ⟨⟨w, hw⟩, _⟩ written hfront hcons
    refine ⟨w, _, hw, ?_⟩
    -- the entries returned are the first ones of those written
    have hbefore : ((upToDamage dir).map fun f => J.decoded (records f)).flatten =
        J.decoded ((upToDamage dir).flatMap records) := by
      unfold Json.decoded
      rw [List.filterMap_flatMap, List.flatMap_def]
    rw [replay_entries, hbefore]
    have hp := (hfront.filterMap fun r => J.decode r.1 r.2).filterMap WalRecord.entry?
    rw [decoded_written] at hp
    obtain ⟨rest, hrest⟩ := hp
    rw [← hrest, List.map_append] at hcons
    exact hcons.left_of_append

/-- Entries `1`, `2` and `3`; the file was rotated before the third and has lost a byte since. -/
def gapFiles : List Bytes :=
  [plainJson.encode (.entry ⟨1, 1, []⟩) ++ (plainJson.encode (.entry ⟨2, 1, []⟩)).dropLast,
    plainJson.encode (.entry ⟨3, 1, []⟩)]

/-- The replay returns the first and the third entry. -/
theorem replay_skips_damage : (∃ w, (WalFiles.newWAL gapFiles).replay plainJson =
      some (w, ⟨0, "", [⟨1, 1, []⟩, ⟨3, 1, []⟩]⟩)) ∧
    upToDamage gapFiles = gapFiles.take 1 ∧ ¬ plainJson.StopsAtDamage gapFiles := by
  have hreplay : ((WalFiles.newWAL gapFiles).replay plainJson).map Prod.snd =
      some ⟨0, "", [⟨1, 1, []⟩, ⟨3, 1, []⟩]⟩ := by decide +kernel
  have hfirst : upToDamage gapFiles = gapFiles.take 1 ∧
      (replay ((gapFiles.take 1).map fun f => plainJson.decoded (records f))).entries =
        [⟨1, 1, []⟩] := by decide +kernel
  obtain ⟨⟨w, r⟩, hw, rfl⟩ := Option.map_eq_some_iff.mp hreplay
  refine ⟨⟨w, hw⟩, hfirst.1, ?_⟩
  rintro ⟨⟨w', hw'⟩, _⟩
  rw [hfirst.1, hw] at hw'
  have hentries := congrArg Replayed.entries (Prod.mk.inj (Option.some.inj hw')).2
  rw [hfirst.2] at hentries
  exact absurd hentries (by decide)

end GammaFlow.Storage
