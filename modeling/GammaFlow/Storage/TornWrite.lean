import Mathlib.Data.List.Induction
import Mathlib.Tactic.IntervalCases
import GammaFlow.Storage.WalFiles

/-!
# Torn writes

A crash in the middle of an append leaves a strict beginning of a frame at the end of
the last file. `Replay` returns everything that was written before, wherever the cut
lies. But it removes the piece only if the header is whole: a shorter one stays, the
next records are appended behind it, and the next replay reads a header that is part
old and part new.
-/

namespace GammaFlow.Storage

open WalFiles

variable {J : Json}

/-- `NewWAL` and `Replay` give the result of these records, as some files may hold them. -/
def Json.Returns (J : Json) (dir : List Bytes) (rs : List WalRecord) : Prop :=
  ∃ fs w, fs.flatten = rs ∧ (newWAL dir).replay J = some (w, Storage.replay fs)

theorem returns_of_stores {older : List Bytes} {file : Bytes} {fs : List (List J.Record)}
    {f : List J.Record} (hold : List.Forall₂ Stores older fs) (hf : Stores file f) :
    J.Returns (older ++ [file]) (plain (fs.flatten ++ f)) := by
  have hreplay := replay_of_stores (w := newWAL (older ++ [file])) (by rw [newWAL_concat]; exact hold)
    (by rw [newWAL_concat]; exact hf.replayFile)
  exact ⟨(fs ++ [f]).map plain, _, flatten_plain fs f, hreplay⟩

theorem WalFiles.Holds.returns {w : WalFiles} {rs : List J.Record} (h : w.Holds rs) :
    J.Returns w.dir (plain rs) := by
  obtain ⟨fs, f, hold, hf, rfl⟩ := h
  exact returns_of_stores hold (hf ▸ stores_encodeAll f)

/-! ## Behind a torn header -/

/-- The bytes of a one-digit term record: header, opening brace, and thirteen more. -/
theorem encode_term (J : Json) {t : Nat} (ht : t < 10) :
    ∃ b : Bytes, b.length = 13 ∧
      J.encode (.term t) = 1 :: 0 :: 0 :: 0 :: 10 :: 0 :: 0 :: 0 :: 123 :: b := by
  obtain ⟨d, hd, hlen⟩ : ∃ d, termText t = 123 :: d ∧ d.length = 9 := by
    have hdec : decimal t = [UInt8.ofNat (48 + t)] := by interval_cases t <;> decide
    refine ⟨ascii "\"term\":" ++ decimal t ++ ascii "\x7d", rfl, ?_⟩
    rw [hdec]
    rfl
  refine ⟨d ++ le32 (crc32 (header 1 (123 :: d) ++ 123 :: d)).toNat, ?_, ?_⟩
  · rw [List.length_append, hlen, length_le32]
  · rw [Json.encode, J.marshal_term, hd, frame, WalRecord.recordType]
    have hhead : header 1 (123 :: d) = [1, 0, 0, 0, 10, 0, 0, 0] := by
      rw [header, List.length_cons, hlen]; decide
    rw [hhead]
    rfl

/-- With one to seven bytes of an old header before it, a term record is not read. -/
theorem readRecord_behind (x : WalRecord) {k t : Nat} (hk : 0 < k) (hk8 : k < 8) (ht : t < 10) :
    readRecord ((J.encode x).take k ++ J.encode (.term t)) = .incomplete ∨
      readRecord ((J.encode x).take k ++ J.encode (.term t)) = .mismatch := by
  obtain ⟨b, hb, henc⟩ := encode_term J ht
  obtain ⟨a, l₀, l₁, l₂, l₃, ha, height⟩ : ∃ a l₀ l₁ l₂ l₃ : UInt8, (a = 1 ∨ a = 2 ∨ a = 3) ∧
      (J.encode x).take 8 = [a, 0, 0, 0, l₀, l₁, l₂, l₃] := by
    have htake : (J.encode x).take 8 = header x.recordType (J.marshal x) := by
      rw [Json.encode, frame, List.append_assoc]
      exact List.take_left' rfl
    rw [htake]
    rcases recordType_cases x with h | h | h
    · exact ⟨1, _, _, _, _, by decide, by rw [header, h]; rfl⟩
    · exact ⟨2, _, _, _, _, by decide, by rw [header, h]; rfl⟩
    · exact ⟨3, _, _, _, _, by decide, by rw [header, h]; rfl⟩
  have hpiece : (J.encode x).take k = [a, 0, 0, 0, l₀, l₁, l₂, l₃].take k := by
    rw [← height, List.take_take, Nat.min_eq_left (by omega)]
  rw [hpiece, henc]
  -- in all cases but one the length field is far too large for what follows
  have far : ∀ head rest : Bytes, head.length = 8 → rest.length ≤ 21 →
      256 ≤ uint32 (head.drop 4) → uint32 (head.drop 4) + 4 < 2 ^ 32 →
      readRecord (head ++ rest) = .incomplete := by
    intro head rest hhead hrest hge hlt
    exact readRecord_incomplete hhead hlt (by omega)
  have h₀ := l₀.toNat_lt
  have h₁ := l₁.toNat_lt
  have h₂ := l₂.toNat_lt
  interval_cases k
  · exact Or.inl (far [a, 1, 0, 0, 0, 10, 0, 0] (0 :: 123 :: b) rfl (by simp [hb])
      (by simp [uint32]) (by simp [uint32]))
  · exact Or.inl (far [a, 0, 1, 0, 0, 0, 10, 0] (0 :: 0 :: 123 :: b) rfl (by simp [hb])
      (by simp [uint32]) (by simp [uint32]))
  · exact Or.inl (far [a, 0, 0, 1, 0, 0, 0, 10] (0 :: 0 :: 0 :: 123 :: b) rfl (by simp [hb])
      (by simp [uint32]) (by simp [uint32]))
  · -- the record type is taken for a length of one, and the checksum does not agree
    right
    have hcrc : (123 * 2 ^ 24 : Nat) ≠ (crc32 ([a, 0, 0, 0, 1, 0, 0, 0] ++ [10])).toNat := by
      rcases ha with rfl | rfl | rfl
      · decide +kernel
      · decide +kernel
      · decide +kernel
    have hread : readRecord ([a, 0, 0, 0, 1, 0, 0, 0] ++ ([10] ++ ([0, 0, 0, 123] ++ b))) = _ :=
      readRecord_whole rfl rfl (by decide) rfl b
    rw [if_pos (by simpa [uint32] using hcrc)] at hread
    exact hread
  · exact Or.inl (far [a, 0, 0, 0, l₀, 1, 0, 0] (0 :: 10 :: 0 :: 0 :: 0 :: 123 :: b) rfl
      (by simp [hb]) (by simp [uint32]) (by simp [uint32]; omega))
  · exact Or.inl (far [a, 0, 0, 0, l₀, l₁, 1, 0] (0 :: 0 :: 10 :: 0 :: 0 :: 0 :: 123 :: b) rfl
      (by simp [hb]) (by simp [uint32]) (by simp [uint32]; omega))
  · exact Or.inl (far [a, 0, 0, 0, l₀, l₁, l₂, 1] (0 :: 0 :: 0 :: 10 :: 0 :: 0 :: 0 :: 123 :: b) rfl
      (by simp [hb]) (by simp [uint32]) (by simp [uint32]; omega))

/-! ## Recovery -/

theorem length_marshal_term (J : Json) {t : Nat} (ht : t < 10) :
    (J.marshal (.term t)).length = 10 := by
  rw [J.marshal_term]
  interval_cases t <;> decide

/-- A positive term that was written last is the term that is returned. -/
theorem replay_term_of_last {t : Nat} (ht : 0 < t) (rs : List WalRecord)
    (fs : List (List WalRecord)) (h : fs.flatten = rs ++ [.term t]) :
    (Storage.replay fs).term = t := by
  induction fs using List.reverseRecOn with
  | nil => exact absurd h (by simp)
  | append_singleton fs f ih =>
      have hmerge : (Storage.replay (fs ++ [f])) =
          (Storage.replay fs).merge (Storage.replayFile f) := by
        simp only [Storage.replay, List.foldl_append, List.foldl_cons, List.foldl_nil]
      rw [List.flatten_concat] at h
      rw [hmerge]
      rcases List.eq_nil_or_concat' f with rfl | ⟨f', r, rfl⟩
      · rw [List.append_nil] at h
        exact ih h
      · rw [← List.append_assoc] at h
        obtain ⟨_, rfl⟩ := List.append_singleton_inj.mp h
        have hlast : (Storage.replayFile (f' ++ [.term t])).term = t := by
          rw [Storage.replayFile, List.foldl_append]; rfl
        show (if (Storage.replayFile (f' ++ [.term t])).term > 0 then _ else _) = t
        rw [hlast, if_pos ht]

/-- A replay that does not return the term written last is not the result of all records. -/
theorem not_returns_of_term {dir : List Bytes} {w : WalFiles} {res : Replayed} {t : Nat}
    (hreplay : (newWAL dir).replay J = some (w, res)) (ht : 0 < t) (hne : res.term ≠ t)
    (rs : List WalRecord) : ¬ J.Returns dir (rs ++ [.term t]) := by
  rintro ⟨gs, w', hgs, hreplay'⟩
  rw [hreplay] at hreplay'
  have hres : res = Storage.replay gs := congrArg Prod.snd (Option.some.inj hreplay')
  rw [hres] at hne
  exact hne (replay_term_of_last ht rs gs hgs)

/-- What the crash leaves: whole records, and the piece behind those of the last file. -/
theorem tear_eq (R : List J.Record) (x : J.Record) (k : Nat) :
    ∃ older fs f, tear J ((newWAL []).appendAll J R) x k
        = older ++ [encodeAll f ++ (J.encode x).take k] ∧
      List.Forall₂ Stores older fs ∧ fs.flatten ++ f = R := by
  have hR := Holds.appendAll R holds_newWAL
  rw [List.nil_append] at hR
  obtain ⟨fs, f, hold, hf, hflat⟩ := hR.room (4 + 4 + (J.marshal x).length + 4)
  exact ⟨_, fs, f, by rw [tear_eq_room, hf], hold, hflat⟩

/-- The rotation check opens a new file behind whatever the last one holds. -/
theorem rotated (w : WalFiles) {fs : List (List J.Record)} {f : List J.Record} {n : Nat}
    (hold : List.Forall₂ Stores w.older fs) (hf : Stores w.file f)
    (hn : maxWALSize < w.fileSize + n) : Holds (w.room n) (fs.flatten ++ f) := by
  rw [room, if_pos hn]
  exact Holds.rotate hold hf

section Piece

variable {older : List Bytes} {piece : Bytes} {fs : List (List J.Record)} {f : List J.Record}

/-- `NewWAL` and `Replay` where the piece is recognised as damaged: it is gone afterwards. -/
theorem replay_of_damaged (hold : List.Forall₂ Stores older fs)
    (hp : readRecord piece = .incomplete ∨ readRecord piece = .mismatch) :
    ∃ w : WalFiles, w.Holds (fs.flatten ++ f) ∧ (newWAL (older ++ [encodeAll f ++ piece])).replay J
      = some (w, Storage.replay ((fs ++ [f]).map plain)) := by
  rw [newWAL_concat]
  exact ⟨_, ⟨fs, f, hold, rfl, rfl⟩, replay_of_stores hold (replayFile_of_damaged f hp)⟩

/-- Where the piece is too short for a header, everything stays as it is. -/
theorem replay_of_short (hold : List.Forall₂ Stores older fs) (hp : piece.length < 8) :
    (newWAL (older ++ [encodeAll f ++ piece])).replay J
      = some (newWAL (older ++ [encodeAll f ++ piece]),
          Storage.replay ((fs ++ [f]).map plain)) := by
  rw [newWAL_concat]
  exact replay_of_stores hold (replayFile_of_short f hp)

/-- Records appended to whole records are recovered. -/
theorem session_recovers_of_holds {dir : List Bytes} {w : WalFiles} {res : Replayed}
    {R : List J.Record} (hreplay : (newWAL dir).replay J = some (w, res)) (hw : w.Holds R)
    (R' : List J.Record) :
    ∃ dir', session J dir R' = some dir' ∧ J.Returns dir' (plain (R ++ R')) := by
  refine ⟨_, ?_, (Holds.appendAll R' hw).returns⟩
  rw [session, hreplay]
  rfl

/-- Behind a short piece, records are recovered if they go to a new file. -/
theorem session_recovers_of_full (hold : List.Forall₂ Stores older fs) (hp : piece.length < 8)
    (hfull : maxWALSize < (newWAL (older ++ [encodeAll f ++ piece])).fileSize + 22)
    (R' : List J.Record) :
    ∃ dir', session J (older ++ [encodeAll f ++ piece]) R' = some dir' ∧
      J.Returns dir' (plain (fs.flatten ++ f ++ R')) := by
  have hsession : session J (older ++ [encodeAll f ++ piece]) R' =
      some ((newWAL (older ++ [encodeAll f ++ piece])).appendAll J R').dir := by
    rw [session, replay_of_short hold hp]
    rfl
  refine ⟨_, hsession, ?_⟩
  rw [newWAL_concat] at hfull ⊢
  have hf : Stores (encodeAll f ++ piece) f := ⟨piece, rfl, hp⟩
  cases R' with
  | nil =>
      rw [List.append_nil]
      exact returns_of_stores hold hf
  | cons r rs =>
      have hlong := J.shortest r
      have hn : maxWALSize < (encodeAll f ++ piece).length + (4 + 4 + (J.marshal r).length + 4) := by
        dsimp only at hfull
        omega
      have hall := Holds.appendAll rs (Holds.append_of_room
        (rotated ⟨older, encodeAll f ++ piece, _⟩ hold hf hn))
      rw [List.append_assoc] at hall
      exact hall.returns

/-- Behind a short piece, a term record in the same file is lost. -/
theorem session_loses_term {x : J.Record} {k t : Nat} (hold : List.Forall₂ Stores older fs)
    (hk : 0 < k) (hk8 : k < 8) (ht : t < 10)
    (hroom : (newWAL (older ++ [encodeAll f ++ (J.encode x).take k])).fileSize + 22 ≤ maxWALSize)
    (r : J.Record) (hr : r.1 = .term t) :
    ∃ dir' w, session J (older ++ [encodeAll f ++ (J.encode x).take k]) [r] = some dir' ∧
      (newWAL dir').replay J = some (w, Storage.replay ((fs ++ [f]).map plain)) := by
  have hshort : ((J.encode x).take k).length < 8 :=
    Nat.lt_of_le_of_lt (List.length_take_le _ _) hk8
  have hsize := length_marshal_term J ht
  have happend : ((newWAL (older ++ [encodeAll f ++ (J.encode x).take k])).appendAll J [r]).dir =
      older ++ [encodeAll f ++ ((J.encode x).take k ++ J.encode (.term t))] := by
    rw [newWAL_concat] at hroom ⊢
    rw [appendAll, List.foldl_cons, List.foldl_nil, append, hr, hsize, room,
      if_neg (by dsimp only at hroom ⊢; omega), dir, List.append_assoc]
  obtain ⟨w, -, hw⟩ := replay_of_damaged (f := f) hold (readRecord_behind x.1 hk hk8 ht)
  refine ⟨_, w, ?_, hw⟩
  rw [session, replay_of_short hold hshort, ← happend]
  rfl

end Piece

/--
**Torn writes.** Whatever was cut off, the first replay returns what had been written.
What is appended afterwards is returned by the next replay, whatever it is, exactly if
the crash left nothing or at least a whole header, or if the file has no room left for
even the smallest record.
-/
theorem torn_write_recovery (J : Json) (R : List J.Record) (x : J.Record)
    (k : Fin (J.encode x).length) :
    J.Returns (tear J ((newWAL []).appendAll J R) x k) (plain R) ∧
    ((∀ R' : List J.Record, ∃ dir',
        session J (tear J ((newWAL []).appendAll J R) x k) R' = some dir' ∧
          J.Returns dir' (plain (R ++ R'))) ↔
      k.1 = 0 ∨ 8 ≤ k.1 ∨
        maxWALSize < (newWAL (tear J ((newWAL []).appendAll J R) x k)).fileSize + 22) := by
  obtain ⟨older, fs, f, htear, hold, hflat⟩ := tear_eq R x k.1
  rw [htear, ← hflat]
  have hshort : k.1 < 8 → ((J.encode x).take k).length < 8 := fun h =>
    Nat.lt_of_le_of_lt (List.length_take_le _ _) h
  have hcut : 8 ≤ k.1 → readRecord ((J.encode x).take k) = .incomplete := fun h =>
    readRecord_torn x.2 h k.2
  refine ⟨?_, ?_, ?_⟩
  · rcases Nat.lt_or_ge k.1 8 with h8 | h8
    · exact returns_of_stores hold ⟨_, rfl, hshort h8⟩
    · obtain ⟨w, _, hw⟩ := replay_of_damaged (f := f) hold (Or.inl (hcut h8))
      exact ⟨_, w, flatten_plain fs f, hw⟩
  · -- a term the first replay did not return would be lost
    intro hall
    by_contra hno
    obtain ⟨t, ht, ht10, hne⟩ : ∃ t, 0 < t ∧ t < 10 ∧
        (Storage.replay ((fs ++ [f]).map plain)).term ≠ t := by
      by_cases h : (Storage.replay ((fs ++ [f]).map plain)).term = 1
      · exact ⟨2, by decide, by decide, by omega⟩
      · exact ⟨1, by decide, by decide, h⟩
    have hfits : (J.marshal (.term t)).length < 2 ^ 32 - 12 := by
      rw [length_marshal_term J ht10]; decide
    have hroom : (newWAL (older ++ [encodeAll f ++ (J.encode x).take k])).fileSize + 22
        ≤ maxWALSize := by omega
    obtain ⟨dir', w, hsession, hreplay⟩ := session_loses_term hold (by omega) (by omega) ht10 hroom
      ⟨.term t, hfits⟩ rfl
    obtain ⟨dir'', hsession', hreturns⟩ := hall [⟨.term t, hfits⟩]
    rw [hsession] at hsession'
    rw [← Option.some.inj hsession', plain_append] at hreturns
    exact not_returns_of_term hreplay ht hne _ hreturns
  · intro hcond R'
    rcases Nat.lt_or_ge k.1 8 with h8 | h8
    · by_cases h0 : k.1 = 0
      · rw [h0, List.take_zero]
        have hreplay : (newWAL (older ++ [encodeAll f ++ []])).replay J = _ :=
          replay_of_short hold (by decide)
        rw [newWAL_concat] at hreplay
        refine session_recovers_of_holds (by rw [newWAL_concat]; exact hreplay) ?_ R'
        exact ⟨fs, f, hold, List.append_nil _, rfl⟩
      · exact session_recovers_of_full hold (hshort h8) (by omega) R'
    · obtain ⟨w, hw, hreplay⟩ := replay_of_damaged (f := f) hold (Or.inl (hcut h8))
      exact session_recovers_of_holds hreplay hw R'

/--
A term record for term `1` is cut after its first byte, and a record for term `2` goes
behind that byte. The next replay returns nothing.
-/
theorem torn_header_lost :
    tear plainJson (newWAL []) (.term 1) 1 = [[1]] ∧
    session plainJson [[1]] [⟨.term 2, by decide⟩] = some [1 :: plainJson.encode (.term 2)] ∧
    (∃ w, (newWAL [1 :: plainJson.encode (.term 2)]).replay plainJson = some (w, Replayed.zero)) ∧
    ¬ plainJson.Returns [1 :: plainJson.encode (.term 2)] [.term 2] := by
  have hfile : [1 :: plainJson.encode (.term 2)] =
      [] ++ [encodeAll ([] : List plainJson.Record) ++
        ((plainJson.encode (.term 1)).take 1 ++ plainJson.encode (.term 2))] := by decide +kernel
  obtain ⟨w, -, hw⟩ := replay_of_damaged (f := ([] : List plainJson.Record)) List.Forall₂.nil
    (readRecord_behind (.term 1) (k := 1) (t := 2) (by decide) (by decide) (by decide))
  rw [← hfile] at hw
  refine ⟨by decide +kernel, ?_, ⟨w, hw⟩, ?_⟩
  · have hreplay : (newWAL ([] ++ [encodeAll [] ++ [1]])).replay plainJson = _ :=
      replay_of_short List.Forall₂.nil (by decide)
    rw [session, show [[1]] = [] ++ [encodeAll ([] : List plainJson.Record) ++ [1]] from rfl, hreplay]
    decide +kernel
  · exact not_returns_of_term hw (by decide) (by decide) []

end GammaFlow.Storage
