import Mathlib.Algebra.Group.Nat.Defs
import GammaFlow.Lib.JsonText
import GammaFlow.Lib.Utf8
import GammaFlow.Storage.Record

/-!
# Write-ahead log records as bytes

A record on disk is a frame: the record type and the payload length, four bytes each,
the payload, and a checksum of all that. The payload is JSON, of which nothing is
assumed here but that it brings back what was written, and what a term record looks
like.

`readRecord` is one turn of the loop in `replayFile`, up to the `switch`. A frame is
read back whole; a frame cut inside its header is taken for the end of the file, and
one cut later for a damaged record.
-/

namespace GammaFlow.Storage

abbrev Bytes := List UInt8

/-! ## Numbers -/

/-- `PutUint32`, which keeps the low 32 bits. -/
def le32 (n : Nat) : Bytes :=
  [UInt8.ofNat n, UInt8.ofNat (n / 2 ^ 8), UInt8.ofNat (n / 2 ^ 16), UInt8.ofNat (n / 2 ^ 24)]

/-- `Uint32`, of the first four bytes. -/
def uint32 : Bytes → Nat
  | a :: b :: c :: d :: _ => a.toNat + b.toNat * 2 ^ 8 + c.toNat * 2 ^ 16 + d.toNat * 2 ^ 24
  | _ => 0

@[simp] theorem length_le32 (n : Nat) : (le32 n).length = 4 := rfl

theorem uint32_le32 {n : Nat} (h : n < 2 ^ 32) (t : Bytes) : uint32 (le32 n ++ t) = n := by
  simp only [le32, uint32, List.cons_append, UInt8.toNat_ofNat']
  omega

theorem le32_uint32 {bs : Bytes} (h : bs.length = 4) : le32 (uint32 bs) = bs := by
  obtain ⟨a, b, c, d, rfl⟩ := List.length_eq_four.mp h
  have ha := a.toNat_lt
  have hb := b.toNat_lt
  have hc := c.toNat_lt
  have hd := d.toNat_lt
  simp only [le32, uint32, List.cons.injEq, ← UInt8.toNat_inj, UInt8.toNat_ofNat', and_true]
  omega

theorem uint32_lt (bs : Bytes) : uint32 bs < 2 ^ 32 := by
  match bs with
  | [] | [_] | [_, _] | [_, _, _] => exact Nat.two_pow_pos 32
  | a :: b :: c :: d :: _ =>
      have ha := a.toNat_lt
      have hb := b.toNat_lt
      have hc := c.toNat_lt
      have hd := d.toNat_lt
      simp only [uint32]
      omega

theorem uint32_take (bs : Bytes) : uint32 (bs.take 4) = uint32 bs := by
  match bs with
  | [] | [_] | [_, _] | [_, _, _] | _ :: _ :: _ :: _ :: _ => rfl

/-- One bit of the reversed IEEE polynomial. -/
def crcBit (c : UInt32) : UInt32 := if c &&& 1 = 1 then (c >>> 1) ^^^ 0xEDB88320 else c >>> 1

def crcByte (c : UInt32) (b : UInt8) : UInt32 := Nat.repeat crcBit 8 (c ^^^ b.toUInt32)

/-- `crc32.ChecksumIEEE`. -/
def crc32 (bs : Bytes) : UInt32 := ~~~ bs.foldl crcByte 0xFFFFFFFF

example : crc32 [49, 50, 51, 52, 53, 54, 55, 56, 57] = 0xCBF43926 := by decide +kernel

/-! ## Payloads -/

def ascii (s : String) : Bytes := s.toList.map Char.toUInt8

def decimal (n : Nat) : Bytes := (Nat.toDigits 10 n).map Char.toUInt8

/-- What `json.Marshal` makes of a `TermRecord`. -/
def termText (t : Nat) : Bytes := ascii "\x7b\"term\":" ++ decimal t ++ ascii "\x7d"

/--
`encoding/json` on the three record structs. It reads back what it wrote, and no text
it writes is shorter than that of the smallest term record.
-/
structure Json where
  marshal : WalRecord → Bytes
  unmarshalTerm : Bytes → Option Nat
  unmarshalVote : Bytes → Option (String × Nat)
  unmarshalEntry : Bytes → Option EntryRecord
  term_marshal : ∀ t, unmarshalTerm (marshal (.term t)) = some t
  vote_marshal : ∀ v t, unmarshalVote (marshal (.vote v t)) = some (v, t)
  entry_marshal : ∀ e, unmarshalEntry (marshal (.entry e)) = some e
  marshal_term : ∀ t, marshal (.term t) = termText t
  shortest : ∀ r, 10 ≤ (marshal r).length

/-- `RecordTerm`, `RecordVote` and `RecordEntry`. -/
def WalRecord.recordType : WalRecord → Nat
  | .term _ => 1
  | .vote _ _ => 2
  | .entry _ => 3

theorem recordType_cases (r : WalRecord) :
    r.recordType = 1 ∨ r.recordType = 2 ∨ r.recordType = 3 := by
  cases r with
  | term t => exact Or.inl rfl
  | vote v t => exact Or.inr (Or.inl rfl)
  | entry e => exact Or.inr (Or.inr rfl)

namespace Json

/-- The `switch` on the record type. Unknown types and texts that do not parse are skipped. -/
def decode (J : Json) : Nat → Bytes → Option WalRecord
  | 1, payload => (J.unmarshalTerm payload).map WalRecord.term
  | 2, payload => (J.unmarshalVote payload).map fun (v, t) => WalRecord.vote v t
  | 3, payload => (J.unmarshalEntry payload).map WalRecord.entry
  | _, _ => none

theorem decode_marshal (J : Json) (r : WalRecord) :
    J.decode r.recordType (J.marshal r) = some r := by
  cases r with
  | term t => simp [decode, WalRecord.recordType, J.term_marshal]
  | vote v t => simp [decode, WalRecord.recordType, J.vote_marshal]
  | entry e => simp [decode, WalRecord.recordType, J.entry_marshal]

/-- The records whose payload length the header can hold. -/
abbrev Record (J : Json) := { r : WalRecord // (J.marshal r).length < 2 ^ 32 - 12 }

end Json

/-! ## Frames -/

def header (recordType : Nat) (data : Bytes) : Bytes := le32 recordType ++ le32 data.length

/-- The buffer that `Append` writes. -/
def frame (recordType : Nat) (data : Bytes) : Bytes :=
  header recordType data ++ data ++ le32 (crc32 (header recordType data ++ data)).toNat

def Json.encode (J : Json) (r : WalRecord) : Bytes := frame r.recordType (J.marshal r)

@[simp] theorem length_header (recordType : Nat) (data : Bytes) :
    (header recordType data).length = 8 := rfl

@[simp] theorem length_frame (recordType : Nat) (data : Bytes) :
    (frame recordType data).length = 8 + data.length + 4 := by
  simp [frame, Nat.add_assoc]

/-- The length the header announces. -/
theorem uint32_header {data : Bytes} (h : data.length < 2 ^ 32) (recordType : Nat) :
    uint32 ((header recordType data).drop 4) = data.length := by
  have hle := uint32_le32 h []
  rwa [List.append_nil] at hle

/-- What one turn of the loop finds. -/
inductive Read where
  /-- The end of the file, or less than a header. -/
  | ended
  /-- Payload or checksum are cut off. -/
  | incomplete
  /-- `payloadLen + 4` overflowed: the slice expression is out of range. -/
  | outOfRange
  | mismatch
  | record (recordType : Nat) (payload : Bytes)
  deriving DecidableEq

/-- One turn of the loop of `replayFile`, at the bytes that are left. -/
def readRecord (rest : Bytes) : Read :=
  if rest.length < 8 then .ended
  else
    let head := rest.take 8
    let payloadLen := uint32 (head.drop 4)
    let size := (payloadLen + 4) % 2 ^ 32
    let payloadAndCRC := (rest.drop 8).take size
    if payloadAndCRC.length < size then .incomplete
    else if size < payloadLen then .outOfRange
    else
      let payload := payloadAndCRC.take payloadLen
      if uint32 (payloadAndCRC.drop payloadLen) ≠ (crc32 (head ++ payload)).toNat then .mismatch
      else .record (uint32 head) payload

theorem readRecord_ended {rest : Bytes} (h : rest.length < 8) : readRecord rest = .ended :=
  if_pos h

/-- A header that announces more than there is. -/
theorem readRecord_incomplete {head rest : Bytes} (hhead : head.length = 8)
    (hsize : uint32 (head.drop 4) + 4 < 2 ^ 32)
    (hshort : rest.length < uint32 (head.drop 4) + 4) :
    readRecord (head ++ rest) = .incomplete := by
  unfold readRecord
  rw [if_neg (by rw [List.length_append]; omega), List.take_left' hhead, List.drop_left' hhead]
  dsimp only
  rw [Nat.mod_eq_of_lt hsize, if_pos]
  rw [List.length_take]
  omega

/-- Where there is as much as the header announces, the checksum decides. -/
theorem readRecord_whole {head payload checksum : Bytes} (hhead : head.length = 8)
    (hlen : uint32 (head.drop 4) = payload.length) (hfits : payload.length < 2 ^ 32 - 4)
    (hsum : checksum.length = 4) (t : Bytes) :
    readRecord (head ++ (payload ++ (checksum ++ t))) =
      if uint32 checksum ≠ (crc32 (head ++ payload)).toNat then .mismatch
      else .record (uint32 head) payload := by
  have hbody : (payload ++ (checksum ++ t)).take (payload.length + 4) = payload ++ checksum := by
    rw [← List.append_assoc]
    exact List.take_left' (by rw [List.length_append, hsum])
  unfold readRecord
  rw [if_neg (by rw [List.length_append]; omega), List.take_left' hhead, List.drop_left' hhead]
  dsimp only
  rw [hlen, Nat.mod_eq_of_lt (show payload.length + 4 < 2 ^ 32 by omega), hbody,
    if_neg (by rw [List.length_append]; omega), if_neg (by omega), List.drop_left, List.take_left]

/-- A whole frame is read back, whatever follows it. -/
theorem readRecord_frame {recordType : Nat} {data : Bytes} (htype : recordType < 2 ^ 32)
    (hdata : data.length < 2 ^ 32 - 4) (t : Bytes) :
    readRecord (frame recordType data ++ t) = .record recordType data := by
  have htyp : uint32 (header recordType data) = recordType := uint32_le32 htype _
  have hcrc := uint32_le32 (UInt32.toNat_lt (crc32 (header recordType data ++ data))) []
  rw [List.append_nil] at hcrc
  rw [frame, List.append_assoc, List.append_assoc,
    readRecord_whole (length_header _ _) (uint32_header (by omega) _) hdata (length_le32 _),
    if_neg (not_not_intro hcrc), htyp]

/-- A frame cut inside its payload or checksum is recognised as damaged. -/
theorem readRecord_torn {recordType : Nat} {data : Bytes} {k : Nat}
    (hdata : data.length < 2 ^ 32 - 12) (h8 : 8 ≤ k) (hk : k < (frame recordType data).length) :
    readRecord ((frame recordType data).take k) = .incomplete := by
  have hlen := uint32_header (show data.length < 2 ^ 32 by omega) recordType
  rw [length_frame] at hk
  rw [frame, List.append_assoc, List.take_append, List.take_of_length_le (by simpa using h8)]
  apply readRecord_incomplete (length_header _ _)
  · rw [hlen]; omega
  · rw [hlen, List.length_take, length_header]; omega

/-- Eight bytes are the header of what they announce. -/
theorem header_uint32 {head payload : Bytes} (hhead : head.length = 8)
    (hlen : uint32 (head.drop 4) = payload.length) : header (uint32 head) payload = head := by
  have htype : le32 (uint32 head) = head.take 4 := by
    rw [← uint32_take]
    exact le32_uint32 (by rw [List.length_take]; omega)
  have hsize : le32 payload.length = head.drop 4 := by
    rw [← hlen]
    exact le32_uint32 (by rw [List.length_drop]; omega)
  rw [header, htype, hsize, List.take_append_drop]

/-- What is accepted is a frame: the converse of `readRecord_frame`. -/
theorem eq_frame_of_readRecord {rest payload : Bytes} {recordType : Nat}
    (h : readRecord rest = .record recordType payload) :
    ∃ t, rest = frame recordType payload ++ t := by
  unfold readRecord at h
  dsimp only at h
  split_ifs at h with hended hshort hrange hsum
  obtain ⟨rfl, rfl⟩ := Read.record.inj h
  generalize hlen : uint32 ((rest.take 8).drop 4) = payloadLen at *
  have hbound : payloadLen < 2 ^ 32 := hlen ▸ uint32_lt _
  -- the sum did not overflow, or the slice would have been out of range
  have hsize : (payloadLen + 4) % 2 ^ 32 = payloadLen + 4 := by omega
  rw [hsize] at hshort hsum ⊢
  generalize hbody : (rest.drop 8).take (payloadLen + 4) = body at hshort hsum ⊢
  have hbodyLen : body.length = payloadLen + 4 := by
    have hle := List.length_take_le (payloadLen + 4) (rest.drop 8)
    rw [hbody] at hle
    omega
  have hpayload : payloadLen = (body.take payloadLen).length := by
    rw [List.length_take]
    omega
  have hhead := header_uint32 (by rw [List.length_take]; omega) (hlen.trans hpayload)
  have hcrc : le32 (uint32 (body.drop payloadLen)) = body.drop payloadLen :=
    le32_uint32 (by rw [List.length_drop]; omega)
  refine ⟨(rest.drop 8).drop (payloadLen + 4), ?_⟩
  rw [frame, hhead, ← not_not.mp hsum, hcrc, List.append_assoc (rest.take 8),
    List.take_append_drop, ← hbody, List.append_assoc, List.take_append_drop,
    List.take_append_drop]

theorem lt_of_readRecord {rest payload : Bytes} {recordType : Nat}
    (h : readRecord rest = .record recordType payload) :
    recordType < 2 ^ 32 ∧ payload.length < 2 ^ 32 := by
  unfold readRecord at h
  dsimp only at h
  split_ifs at h
  obtain ⟨rfl, rfl⟩ := Read.record.inj h
  refine ⟨uint32_lt _, ?_⟩
  rw [List.length_take]
  exact Nat.lt_of_le_of_lt (Nat.min_le_left _ _) (uint32_lt _)

/-- What is read at the start of a stream never reaches beyond it. -/
theorem length_of_readRecord {rest payload : Bytes} {recordType : Nat}
    (h : readRecord rest = .record recordType payload) :
    8 + payload.length + 4 ≤ rest.length := by
  obtain ⟨t, rfl⟩ := eq_frame_of_readRecord h
  rw [List.length_append, length_frame]
  omega

/-! ## The texts of the three records -/

open JsonText

/-- The number between the eight bytes of `termText`'s opening and its closing brace. -/
def textNumber (text : Bytes) : Nat :=
  Nat.ofDigitChars 10 (((text.drop 8).dropLast).map fun b => Char.ofNat b.toNat) 0

theorem textNumber_termText (n : Nat) : textNumber (termText n) = n := by
  have hchar : ∀ c ∈ Nat.toDigits 10 n, Char.ofNat c.toUInt8.toNat = c := by
    intro c hc
    obtain ⟨_, hle⟩ := Char.isDigit_iff_toNat.mp
      (Nat.isDigit_of_mem_toDigits (by omega) (by omega) hc)
    have hsmall : c.toUInt8.toNat = c.toNat :=
      (UInt32.toNat_toUInt8 c.val).trans
        (Nat.mod_eq_of_lt (Nat.lt_of_le_of_lt hle (by decide)))
    rw [hsmall, Char.ofNat_toNat]
  have hmid : ((termText n).drop 8).dropLast = decimal n := by
    rw [termText, List.append_assoc, List.drop_left' (by decide)]
    exact List.dropLast_concat
  have hback : (decimal n).map (fun b => Char.ofNat b.toNat) = Nat.toDigits 10 n := by
    rw [decimal, List.map_map]
    exact (List.map_congr_left hchar).trans (List.map_id _)
  rw [textNumber, hmid, hback, Nat.ofDigitChars_ten_toDigits]

theorem ten_le_length_termText (n : Nat) : 10 ≤ (termText n).length := by
  have h := Nat.length_toDigits_pos (b := 10) (n := n)
  have hopen : (ascii "\x7b\"term\":").length = 8 := by decide
  have hclose : (ascii "\x7d").length = 1 := by decide
  simp only [termText, decimal, List.length_append, List.length_map, hopen, hclose]
  omega

/-- The text of a `VoteRecord`, with its fields in the order of the struct. -/
def voteText (votedFor : String) (term : Nat) : List Char :=
  "\x7b\"voted_for\":\"".toList ++ (votedFor.toList.flatMap escape ++
    ("\",\"term\":".toList ++ (Nat.toDigits 10 term ++ ['\x7d'])))

/-- The text of an `EntryRecord`. -/
def entryText (e : EntryRecord) : List Char :=
  "\x7b\"index\":".toList ++ (Nat.toDigits 10 e.index ++
    (",\"term\":".toList ++ (Nat.toDigits 10 e.term ++
      (",\"command\":\"".toList ++ (encode e.command ++ ['"', '\x7d'])))))

/-- What follows the literal, if the text begins with it. -/
def expect (literal text : List Char) : Option (List Char) :=
  if literal <+: text then some (text.drop literal.length) else none

theorem expect_append (literal rest : List Char) : expect literal (literal ++ rest) = some rest := by
  rw [expect, if_pos (List.prefix_append _ _), List.drop_left]

def parseVote (text : List Char) : Option (String × Nat) := do
  let text ← expect "\x7b\"voted_for\":\"".toList text
  let (votedFor, text) ← unquote text
  let text ← expect ",\"term\":".toList text
  let (term, text) := number text
  if text = ['\x7d'] then some (String.ofList votedFor, term) else none

def parseEntry (text : List Char) : Option EntryRecord := do
  let text ← expect "\x7b\"index\":".toList text
  let (index, text) := number text
  let text ← expect ",\"term\":".toList text
  let (term, text) := number text
  let text ← expect ",\"command\":\"".toList text
  let (command, text) ← unquote text
  let command ← decode command
  if text = ['\x7d'] then some ⟨index, term, command⟩ else none

theorem parseVote_voteText (v : String) (t : Nat) : parseVote (voteText v t) = some (v, t) := by
  have hquote : "\",\"term\":".toList = '"' :: ",\"term\":".toList := by decide
  unfold parseVote voteText
  rw [hquote, List.cons_append, expect_append, Option.bind_eq_bind, Option.bind_some, unquote_flatMap]
  dsimp only [Option.bind_eq_bind, Option.bind_some]
  rw [expect_append]
  dsimp only [Option.bind_some]
  rw [number_toDigits t (by simp)]
  dsimp only
  rw [if_pos rfl, String.ofList_toList]

theorem parseEntry_entryText (e : EntryRecord) : parseEntry (entryText e) = some e := by
  have hcommand := unquote_flatMap (encode e.command) ['\x7d']
  rw [flatMap_escape_encode] at hcommand
  unfold parseEntry entryText
  rw [expect_append, Option.bind_eq_bind, Option.bind_some, number_toDigits e.index (by simp)]
  dsimp only [Option.bind_eq_bind]
  rw [expect_append, Option.bind_some, number_toDigits e.term (by simp)]
  dsimp only
  rw [expect_append, Option.bind_some, hcommand]
  dsimp only [Option.bind_some]
  rw [decode_encode, Option.bind_some, if_pos rfl]

theorem le_length_encode {n : Nat} {l m : List Char}
    (h : n ≤ (Utf8.encode l).length + (Utf8.encode m).length) (x y : List Char) :
    n ≤ (Utf8.encode (l ++ (x ++ (m ++ y)))).length := by
  simp only [Utf8.encode_append, List.length_append]
  omega

/-- The records as `encoding/json` writes them; what it does not write is read less liberally. -/
def plainJson : Json where
  marshal
    | .term t => termText t
    | .vote v t => Utf8.encode (voteText v t)
    | .entry e => Utf8.encode (entryText e)
  unmarshalTerm p := some (textNumber p)
  unmarshalVote p := parseVote (Utf8.runes p)
  unmarshalEntry p := parseEntry (Utf8.runes p)
  term_marshal t := congrArg some (textNumber_termText t)
  vote_marshal v t := by rw [Utf8.runes_encode, parseVote_voteText]
  entry_marshal e := by rw [Utf8.runes_encode, parseEntry_entryText]
  marshal_term _ := rfl
  shortest r := by
    cases r with
    | term t => exact ten_le_length_termText t
    | vote v t => exact le_length_encode (by decide) _ _
    | entry e => exact le_length_encode (by decide) _ _

end GammaFlow.Storage
