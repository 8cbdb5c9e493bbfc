import Mathlib.Data.List.Basic

/-!
# Bytes read as text

`runes` reads any bytes as text: code points where they are well formed, and one
replacement character for every other byte. What it makes of the bytes, written out
again, is valid; and it is the bytes themselves exactly if they were
(`sanitize_eq_iff`).

Well-formedness is that of the standard library, in which neither surrogates nor
overlong forms are code points.
-/

namespace GammaFlow.Utf8

def encode (text : List Char) : List UInt8 := text.flatMap String.utf8EncodeChar

/-- The bytes of a literal. -/
def bytesOf (s : String) : List UInt8 := encode s.toList

theorem encode_append (s t : List Char) : encode (s ++ t) = encode s ++ encode t :=
  List.flatMap_append

def Valid (bytes : List UInt8) : Prop := bytes.toByteArray.IsValidUTF8

instance (bytes : List UInt8) : Decidable (Valid bytes) := by unfold Valid; infer_instance

/-- What stands for a byte that is no text: `U+FFFD`. -/
def replacement : Char := Char.ofNat 0xfffd

/-- The code point at the start of the bytes, if there is one. -/
def decodeRune (bytes : List UInt8) : Option Char := bytes.toByteArray.utf8DecodeChar? 0

/-- At most `fuel` code points or replacements. -/
def runesFrom : Nat → List UInt8 → List Char
  | 0, _ => []
  | _ + 1, [] => []
  | fuel + 1, b :: rest =>
      match decodeRune (b :: rest) with
      | some c => c :: runesFrom fuel ((b :: rest).drop c.utf8Size)
      | none => replacement :: runesFrom fuel rest

/-- All of the bytes as text. -/
def runes (bytes : List UInt8) : List Char := runesFrom bytes.length bytes

/-- The bytes with every one that is no text replaced. -/
def sanitize (bytes : List UInt8) : List UInt8 := encode (runes bytes)

theorem valid_iff {bytes : List UInt8} : Valid bytes ↔ ∃ text, bytes = encode text := by
  unfold Valid
  constructor
  · rintro ⟨text, h⟩
    exact ⟨text, List.toByteArray_inj.mp h⟩
  · rintro ⟨text, rfl⟩
    exact ⟨text, rfl⟩

theorem valid_encode (text : List Char) : Valid (encode text) := valid_iff.mpr ⟨text, rfl⟩

theorem decodeRune_encode (c : Char) (rest : List UInt8) :
    decodeRune (String.utf8EncodeChar c ++ rest) = some c := by
  unfold decodeRune
  rw [List.toByteArray_append]
  exact ByteArray.utf8DecodeChar?_utf8EncodeChar_append

/-- Text is read back as it was written. -/
theorem runesFrom_encode (text : List Char) : ∀ fuel, (encode text).length ≤ fuel →
    runesFrom fuel (encode text) = text := by
  induction text with
  | nil => intro fuel _; cases fuel <;> rfl
  | cons c text ih =>
      intro fuel hfuel
      have hcons : encode (c :: text) = String.utf8EncodeChar c ++ encode text := List.flatMap_cons
      have hsize := String.length_utf8EncodeChar c
      have hpos := c.utf8Size_pos
      rw [hcons, List.length_append, hsize] at hfuel
      obtain ⟨fuel, rfl⟩ : ∃ m, fuel = m + 1 := ⟨fuel - 1, by omega⟩
      obtain ⟨b, rest, hb⟩ : ∃ b rest, String.utf8EncodeChar c ++ encode text = b :: rest := by
        cases h : String.utf8EncodeChar c ++ encode text with
        | nil => exact absurd (List.append_eq_nil_iff.mp h).1 String.utf8EncodeChar_ne_nil
        | cons b rest => exact ⟨b, rest, rfl⟩
      have hdecode := decodeRune_encode c (encode text)
      have hdrop : (b :: rest).drop c.utf8Size = encode text := by
        rw [← hb]; exact List.drop_left' hsize
      rw [hb] at hdecode
      rw [hcons, hb, runesFrom, hdecode]
      dsimp only
      rw [hdrop, ih fuel (by omega)]

theorem runes_encode (text : List Char) : runes (encode text) = text :=
  runesFrom_encode text _ (Nat.le_refl _)

theorem valid_sanitize (bytes : List UInt8) : Valid (sanitize bytes) := valid_encode _

theorem sanitize_of_valid {bytes : List UInt8} (h : Valid bytes) : sanitize bytes = bytes := by
  obtain ⟨text, rfl⟩ := valid_iff.mp h
  rw [sanitize, runes_encode]

/-- **Exactly valid bytes come through unchanged.** -/
theorem sanitize_eq_iff {bytes : List UInt8} : sanitize bytes = bytes ↔ Valid bytes := by
  constructor
  · intro h
    have hvalid := valid_sanitize bytes
    rwa [h] at hvalid
  · exact sanitize_of_valid

end GammaFlow.Utf8
