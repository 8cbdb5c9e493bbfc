import Mathlib.Algebra.Group.Nat.Defs
import Mathlib.Data.List.Basic

/-!
# The text of JSON values

Strings, numbers and byte strings as `encoding/json` writes them, and a reader for each
that stops where the value does: a string is quoted, with escapes for what must not stand
in it or not in HTML, bytes are a string in base64, and a number is decimal.

Every value is read back as it was written, whatever follows it (`unquote_escape`,
`number_toDigits`, `decode_encode`).
-/

namespace GammaFlow.JsonText

/-! ## Strings -/

/-- What has an escape of two characters, and the second one. -/
def shortEscapes : List (Char × Char) :=
  [('"', '"'), ('\\', '\\'), ('\x08', 'b'), ('\x0c', 'f'), ('\n', 'n'), ('\x0d', 'r'), ('\t', 't')]

def hex4 (n : Nat) : List Char :=
  [n / 4096, n / 256 % 16, n / 16 % 16, n % 16].map Nat.digitChar

def hexValue (c : Char) : Nat := if c.isDigit then c.toNat - 48 else c.toNat - 87

def hexNumber (a b c d : Char) : Nat :=
  hexValue a * 4096 + hexValue b * 256 + hexValue c * 16 + hexValue d

/-- Control characters, those that mean something in HTML, and two line separators. -/
def LongEscape (c : Char) : Prop :=
  c.toNat < 0x20 ∨ c ∈ ['<', '>', '&'] ∨ c.toNat = 0x2028 ∨ c.toNat = 0x2029

instance (c : Char) : Decidable (LongEscape c) := inferInstanceAs (Decidable (_ ∨ _ ∨ _ ∨ _))

def escape (c : Char) : List Char :=
  match shortEscapes.find? fun e => e.1 = c with
  | some e => ['\\', e.2]
  | none => if LongEscape c then '\\' :: 'u' :: hex4 c.toNat else [c]

/-- The string that ends at the next quote, and what follows that. -/
def unquote : List Char → Option (List Char × List Char)
  | [] => none
  | '\\' :: 'u' :: a :: b :: c :: d :: rest =>
      (unquote rest).map fun (s, t) => (Char.ofNat (hexNumber a b c d) :: s, t)
  | '\\' :: e :: rest => do
      let c ← (shortEscapes.find? fun p => p.2 = e).map Prod.fst
      let (s, t) ← unquote rest
      return (c :: s, t)
  | c :: rest => if c = '"' then some ([], rest) else (unquote rest).map fun (s, t) => (c :: s, t)

theorem hexValue_digitChar : ∀ n < 16, hexValue (Nat.digitChar n) = n := by decide

theorem unquote_hex4 {n : Nat} (h : n < 2 ^ 16) (t : List Char) :
    unquote ('\\' :: 'u' :: hex4 n ++ t) =
      (unquote t).map fun p => (Char.ofNat n :: p.1, p.2) := by
  have hnumber : hexNumber (Nat.digitChar (n / 4096)) (Nat.digitChar (n / 256 % 16))
      (Nat.digitChar (n / 16 % 16)) (Nat.digitChar (n % 16)) = n := by
    unfold hexNumber
    rw [hexValue_digitChar _ (by omega), hexValue_digitChar _ (by omega),
      hexValue_digitChar _ (by omega), hexValue_digitChar _ (by omega)]
    omega
  show unquote ('\\' :: 'u' :: Nat.digitChar (n / 4096) :: Nat.digitChar (n / 256 % 16) ::
    Nat.digitChar (n / 16 % 16) :: Nat.digitChar (n % 16) :: t) = _
  rw [unquote, hnumber]

theorem unquote_short {p : Char × Char} (h : p ∈ shortEscapes) (t : List Char) :
    unquote ('\\' :: p.2 :: t) = (unquote t).map fun q => (p.1 :: q.1, q.2) := by
  simp only [shortEscapes, List.mem_cons, List.not_mem_nil, or_false] at h
  rcases h with rfl | rfl | rfl | rfl | rfl | rfl | rfl <;>
    (rw [unquote] <;> first
      | (cases unquote t <;> rfl)
      | simp)

theorem unquote_cons {c : Char} (h : shortEscapes.find? (fun e => e.1 = c) = none) (t : List Char) :
    unquote (c :: t) = (unquote t).map fun p => (c :: p.1, p.2) := by
  have hquote : c ≠ '"' := by rintro rfl; exact absurd h (by decide)
  have hslash : c ≠ '\\' := by rintro rfl; exact absurd h (by decide)
  rw [unquote, if_neg hquote]
  · intro a b d e rest he
    exact absurd he hslash
  · intro e rest he
    exact absurd he hslash

/-- **A character is read back, however it was written.** -/
theorem unquote_escape (c : Char) (t : List Char) :
    unquote (escape c ++ t) = (unquote t).map fun p => (c :: p.1, p.2) := by
  unfold escape
  split
  · rename_i e he
    have hc : e.1 = c := by simpa using List.find?_some he
    rw [← hc]
    exact unquote_short (List.mem_of_find?_eq_some he) t
  · rename_i hnone
    split
    · rename_i hlong
      have hlt : c.toNat < 2 ^ 16 := by
        rcases hlong with h | h | h | h
        · omega
        · simp only [List.mem_cons, List.not_mem_nil, or_false] at h
          rcases h with rfl | rfl | rfl <;> decide
        · omega
        · omega
      rw [unquote_hex4 hlt, Char.ofNat_toNat]
    · exact unquote_cons hnone t

/-- A string is read back as it was written. -/
theorem unquote_flatMap (s t : List Char) : unquote (s.flatMap escape ++ '"' :: t) = some (s, t) := by
  induction s with
  | nil => simp [unquote]
  | cons c s ih =>
      rw [List.flatMap_cons, List.append_assoc, unquote_escape, ih]
      rfl

/-! ## Numbers -/

/-- The number that the text begins with, and what follows it. -/
def number (text : List Char) : Nat × List Char :=
  (Nat.ofDigitChars 10 (text.takeWhile Char.isDigit) 0, text.dropWhile Char.isDigit)

theorem number_toDigits (n : Nat) {t : List Char} (ht : ∀ c ∈ t.head?, c.isDigit = false) :
    number (Nat.toDigits 10 n ++ t) = (n, t) := by
  have hdigits : ∀ d ∈ Nat.toDigits 10 n, d.isDigit = true := fun d hd =>
    Nat.isDigit_of_mem_toDigits (by omega) (by omega) hd
  have hstop : t.takeWhile Char.isDigit = [] ∧ t.dropWhile Char.isDigit = t := by
    cases t with
    | nil => exact ⟨rfl, rfl⟩
    | cons c t => simp [ht c rfl]
  unfold number
  rw [List.takeWhile_append_of_pos hdigits, List.dropWhile_append_of_pos hdigits, hstop.1, hstop.2,
    List.append_nil, Nat.ofDigitChars_ten_toDigits]

/-! ## Bytes -/

/-- The alphabet of base64: the capitals, the small letters, the digits, `+` and `/`. -/
def sextet (n : Nat) : Char :=
  if n < 26 then Char.ofNat (n + 65)
  else if n < 52 then Char.ofNat (n + 71)
  else if n < 62 then Char.ofNat (n - 4)
  else if n = 62 then '+'
  else if n = 63 then '/'
  else '='

def value (c : Char) : Option Nat :=
  if c.isUpper then some (c.toNat - 65)
  else if c.isLower then some (c.toNat - 71)
  else if c.isDigit then some (c.toNat + 4)
  else if c = '+' then some 62
  else if c = '/' then some 63
  else none

def encode : List UInt8 → List Char
  | [] => []
  | [a] => [sextet (a.toNat / 4), sextet (a.toNat % 4 * 16), '=', '=']
  | [a, b] => [sextet (a.toNat / 4), sextet (a.toNat % 4 * 16 + b.toNat / 16),
      sextet (b.toNat % 16 * 4), '=']
  | a :: b :: c :: rest =>
      sextet (a.toNat / 4) :: sextet (a.toNat % 4 * 16 + b.toNat / 16) ::
        sextet (b.toNat % 16 * 4 + c.toNat / 64) :: sextet (c.toNat % 64) :: encode rest

/-- The one to three bytes of four characters. -/
def quantum (w x y z : Char) : Option (List UInt8) := do
  let w ← value w
  let x ← value x
  let first := UInt8.ofNat (w * 4 + x / 16)
  if y = '=' then return [first]
  let y ← value y
  let second := UInt8.ofNat (x % 16 * 16 + y / 4)
  if z = '=' then return [first, second]
  let z ← value z
  return [first, second, UInt8.ofNat (y % 4 * 64 + z)]

def decode : List Char → Option (List UInt8)
  | [] => some []
  | w :: x :: y :: z :: rest => do
      let bytes ← quantum w x y z
      let more ← decode rest
      return bytes ++ more
  | _ => none

theorem value_sextet : ∀ n < 64, value (sextet n) = some n := by decide

theorem sextet_ne : ∀ n < 64, sextet n ≠ '=' := by decide

/-- What stands for itself: no short escape is for it, and no long one. -/
def Plain (c : Char) : Prop :=
  0x26 < c.toNat ∧ c.toNat < 0x2028 ∧ c ≠ '<' ∧ c ≠ '>' ∧ c ≠ '\\'

instance (c : Char) : Decidable (Plain c) := inferInstanceAs (Decidable (_ ∧ _ ∧ _ ∧ _ ∧ _))

theorem escape_of_plain {c : Char} (h : Plain c) : escape c = [c] := by
  obtain ⟨hlow, hhigh, hlt, hgt, hslash⟩ := h
  have hshort : shortEscapes.find? (fun e => e.1 = c) = none := by
    rw [List.find?_eq_none]
    simp only [shortEscapes, List.forall_mem_cons, decide_eq_true_eq]
    refine ⟨?_, fun he => hslash he.symm, ?_, ?_, ?_, ?_, ?_, fun _ he => absurd he List.not_mem_nil⟩
    all_goals rintro rfl; exact absurd hlow (by decide)
  have hlong : ¬ LongEscape c := by
    rintro (h | h | h | h)
    · omega
    · simp only [List.mem_cons, List.not_mem_nil, or_false] at h
      rcases h with rfl | rfl | rfl
      · exact hlt rfl
      · exact hgt rfl
      · exact absurd hlow (by decide)
    · omega
    · omega
  unfold escape
  rw [hshort]
  exact if_neg hlong

/-- Nothing in base64 needs an escape. -/
theorem escape_sextet (n : Nat) : escape (sextet n) = [sextet n] := by
  have hplain : ∀ n < 65, Plain (sextet n) := by decide
  refine escape_of_plain ?_
  by_cases h : n < 64
  · exact hplain n (by omega)
  · have hpad : sextet n = sextet 64 := by
      unfold sextet
      repeat rw [if_neg (by omega)]
    rw [hpad]; exact hplain 64 (by omega)

theorem flatMap_escape_encode (bytes : List UInt8) :
    (encode bytes).flatMap escape = encode bytes := by
  have hpad : escape '=' = ['='] := escape_sextet 64
  induction bytes using encode.induct with
  | case1 => rfl
  | case2 a => simp [encode, escape_sextet, hpad]
  | case3 a b => simp [encode, escape_sextet, hpad]
  | case4 a b c rest ih => simp [encode, escape_sextet, ih]

theorem byte_eq {n : Nat} {b : UInt8} (h : n = b.toNat) : UInt8.ofNat n = b := by
  rw [h, UInt8.ofNat_toNat]

theorem quantum_one (a : UInt8) :
    quantum (sextet (a.toNat / 4)) (sextet (a.toNat % 4 * 16)) '=' '=' = some [a] := by
  have ha := a.toNat_lt
  have hfirst : UInt8.ofNat (a.toNat / 4 * 4 + a.toNat % 4 * 16 / 16) = a := byte_eq (by omega)
  unfold quantum
  rw [value_sextet _ (by omega), value_sextet _ (by omega)]
  simp only [Option.bind_eq_bind, Option.bind_some, hfirst]
  rfl

theorem quantum_two (a b : UInt8) :
    quantum (sextet (a.toNat / 4)) (sextet (a.toNat % 4 * 16 + b.toNat / 16))
      (sextet (b.toNat % 16 * 4)) '=' = some [a, b] := by
  have ha := a.toNat_lt
  have hb := b.toNat_lt
  have hfirst : UInt8.ofNat (a.toNat / 4 * 4 + (a.toNat % 4 * 16 + b.toNat / 16) / 16) = a :=
    byte_eq (by omega)
  have hsecond : UInt8.ofNat ((a.toNat % 4 * 16 + b.toNat / 16) % 16 * 16 +
      b.toNat % 16 * 4 / 4) = b := byte_eq (by omega)
  unfold quantum
  rw [value_sextet _ (by omega), value_sextet _ (by omega), value_sextet _ (by omega)]
  simp only [Option.bind_eq_bind, Option.bind_some, hfirst, hsecond]
  rw [if_neg (sextet_ne _ (by omega))]
  rfl

theorem quantum_three (a b c : UInt8) :
    quantum (sextet (a.toNat / 4)) (sextet (a.toNat % 4 * 16 + b.toNat / 16))
      (sextet (b.toNat % 16 * 4 + c.toNat / 64)) (sextet (c.toNat % 64)) = some [a, b, c] := by
  have ha := a.toNat_lt
  have hb := b.toNat_lt
  have hc := c.toNat_lt
  have hfirst : UInt8.ofNat (a.toNat / 4 * 4 + (a.toNat % 4 * 16 + b.toNat / 16) / 16) = a :=
    byte_eq (by omega)
  have hsecond : UInt8.ofNat ((a.toNat % 4 * 16 + b.toNat / 16) % 16 * 16 +
      (b.toNat % 16 * 4 + c.toNat / 64) / 4) = b := byte_eq (by omega)
  have hthird : UInt8.ofNat ((b.toNat % 16 * 4 + c.toNat / 64) % 4 * 64 + c.toNat % 64) = c :=
    byte_eq (by omega)
  unfold quantum
  rw [value_sextet _ (by omega), value_sextet _ (by omega), value_sextet _ (by omega),
    value_sextet _ (by omega)]
  simp only [Option.bind_eq_bind, Option.bind_some, hfirst, hsecond, hthird]
  rw [if_neg (sextet_ne _ (by omega)), if_neg (sextet_ne _ (by omega))]
  rfl

/-- **Bytes are read back as they were written.** -/
theorem decode_encode (bytes : List UInt8) : decode (encode bytes) = some bytes := by
  induction bytes using encode.induct with
  | case1 => rfl
  | case2 a => rw [encode, decode, quantum_one]; rfl
  | case3 a b => rw [encode, decode, quantum_two]; rfl
  | case4 a b c rest ih => rw [encode, decode, quantum_three, ih]; rfl

end GammaFlow.JsonText
