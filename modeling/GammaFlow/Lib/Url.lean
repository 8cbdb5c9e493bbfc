import Mathlib.Data.List.TakeWhile

/-!
# Reading a URL

`parse` reads an absolute URL: the fragment is what follows the first `#`, the query what
follows the first `?` before it, then come scheme, host and path, and the path is
percent-decoded.

A path that is put into a URL as it is comes back as it was exactly if none of its bytes
means something there: `reads_iff`. Escaping the bytes that are not ASCII, and only these,
changes nothing about that (`reads_escape`).
-/

namespace GammaFlow

structure Url where
  scheme : List UInt8
  host : List UInt8
  path : List UInt8
  query : Option (List UInt8)
  fragment : Option (List UInt8)
  deriving DecidableEq, Repr

namespace Url

/-! ## Percent-encoding -/

def hexValue (b : UInt8) : Option Nat :=
  if '0'.toUInt8 ≤ b ∧ b ≤ '9'.toUInt8 then some (b.toNat - 48)
  else if 'a'.toUInt8 ≤ b ∧ b ≤ 'f'.toUInt8 then some (b.toNat - 87)
  else if 'A'.toUInt8 ≤ b ∧ b ≤ 'F'.toUInt8 then some (b.toNat - 55)
  else none

def hexDigit (n : Nat) : UInt8 := UInt8.ofNat (if n < 10 then 48 + n else 87 + n)

/-- Every `%` is followed by two hexadecimal digits and stands for a byte with them. -/
def percentDecode : List UInt8 → Option (List UInt8)
  | [] => some []
  | b :: s =>
      if b = '%'.toUInt8 then
        match s with
        | high :: low :: s => do
            let high ← hexValue high
            let low ← hexValue low
            let rest ← percentDecode s
            return UInt8.ofNat (16 * high + low) :: rest
        | _ => none
      else (percentDecode s).map (b :: ·)

theorem percentDecode_cons {b : UInt8} (h : b ≠ '%'.toUInt8) (s : List UInt8) :
    percentDecode (b :: s) = (percentDecode s).map (b :: ·) := by
  rw [percentDecode.eq_def]
  exact if_neg h

theorem percentDecode_percent (high low : UInt8) (s : List UInt8) :
    percentDecode ('%'.toUInt8 :: high :: low :: s) = (do
      let high ← hexValue high
      let low ← hexValue low
      let rest ← percentDecode s
      return UInt8.ofNat (16 * high + low) :: rest) := by
  rw [percentDecode, if_pos rfl]

theorem percentDecode_short {s : List UInt8} (h : s.length < 2) :
    percentDecode ('%'.toUInt8 :: s) = none := by
  match s with
  | [] => rfl
  | [_] => rfl
  | _ :: _ :: s => exact absurd h (by simp)

/-- By the recursion of `percentDecode`: a byte, an escape, or the beginning of one. -/
theorem decode_induction {P : List UInt8 → Prop} (nil : P [])
    (byte : ∀ b s, b ≠ '%'.toUInt8 → P s → P (b :: s))
    (escape : ∀ high low s, P s → P ('%'.toUInt8 :: high :: low :: s))
    (short : ∀ s : List UInt8, s.length < 2 → P ('%'.toUInt8 :: s)) : ∀ s, P s
  | [] => nil
  | b :: s => by
      by_cases hb : b = '%'.toUInt8
      · subst hb
        match s with
        | [] => exact short [] (by decide)
        | [c] => exact short [c] (by simp)
        | high :: low :: s => exact escape high low s (decode_induction nil byte escape short s)
      · exact byte b s hb (decode_induction nil byte escape short s)

/-- Decoding makes nothing longer, and what has an escape shorter. -/
theorem length_percentDecode (s : List UInt8) : ∀ {t : List UInt8}, percentDecode s = some t →
    t.length ≤ s.length ∧ ('%'.toUInt8 ∈ s → t.length < s.length) := by
  induction s using decode_induction with
  | nil => intro t h; rw [← Option.some.inj h]; simp
  | byte b s hb ih =>
      intro t h
      rw [percentDecode_cons hb] at h
      obtain ⟨t', ht', rfl⟩ := Option.map_eq_some_iff.mp h
      obtain ⟨hle, hlt⟩ := ih ht'
      refine ⟨Nat.succ_le_succ hle, ?_⟩
      intro hmem
      rcases List.mem_cons.mp hmem with heq | hmem
      · exact absurd heq.symm hb
      · exact Nat.succ_lt_succ (hlt hmem)
  | escape high low s ih =>
      intro t h
      rw [percentDecode_percent] at h
      simp only [Option.bind_eq_bind, Option.bind_eq_some_iff, Option.pure_def,
        Option.some.injEq] at h
      obtain ⟨_, _, _, _, t', ht', rfl⟩ := h
      have hle := (ih ht').1
      simp only [List.length_cons]
      omega
  | short s hs => intro t h; rw [percentDecode_short hs] at h; exact absurd h (by simp)

theorem percentDecode_of_plain {s : List UInt8} (h : '%'.toUInt8 ∉ s) :
    percentDecode s = some s := by
  induction s with
  | nil => rfl
  | cons b s ih =>
      rw [percentDecode_cons (fun hb => h (hb ▸ List.mem_cons_self)),
        ih fun hs => h (List.mem_cons_of_mem _ hs), Option.map_some]

theorem percentDecode_eq_self_iff {s : List UInt8} : percentDecode s = some s ↔ '%'.toUInt8 ∉ s :=
  ⟨fun h hs => absurd ((length_percentDecode s h).2 hs) (Nat.lt_irrefl _), percentDecode_of_plain⟩

/-- Percent-encode what is not ASCII. -/
def escapeByte (b : UInt8) : List UInt8 :=
  if b < 0x80 then [b] else ['%'.toUInt8, hexDigit (b.toNat / 16), hexDigit (b.toNat % 16)]

def hexEscapeNonASCII (s : List UInt8) : List UInt8 := s.flatMap escapeByte

def Ascii (s : List UInt8) : Prop := ∀ b ∈ s, b < 0x80

theorem hexEscape_append (s t : List UInt8) :
    hexEscapeNonASCII (s ++ t) = hexEscapeNonASCII s ++ hexEscapeNonASCII t := List.flatMap_append

theorem hexEscape_cons_ascii {b : UInt8} (h : b < 0x80) (s : List UInt8) :
    hexEscapeNonASCII (b :: s) = b :: hexEscapeNonASCII s := by
  rw [hexEscapeNonASCII, List.flatMap_cons, escapeByte, if_pos h]
  rfl

theorem hexEscape_cons_not_ascii {b : UInt8} (h : ¬ b < 0x80) (s : List UInt8) :
    hexEscapeNonASCII (b :: s) =
      '%'.toUInt8 :: hexDigit (b.toNat / 16) :: hexDigit (b.toNat % 16) :: hexEscapeNonASCII s := by
  rw [hexEscapeNonASCII, List.flatMap_cons, escapeByte, if_neg h]
  rfl

theorem hexEscape_of_ascii {s : List UInt8} (h : Ascii s) : hexEscapeNonASCII s = s := by
  induction s with
  | nil => rfl
  | cons b s ih =>
      rw [hexEscape_cons_ascii (h b List.mem_cons_self),
        ih fun c hc => h c (List.mem_cons_of_mem _ hc)]

theorem hexValue_hexDigit : ∀ n < 16, hexValue (hexDigit n) = some n := by decide

theorem hexValue_of_not_ascii {b : UInt8} (h : ¬ b < 0x80) : hexValue b = none := by
  have hb : 128 ≤ b.toNat := Nat.not_lt.mp fun hlt => h (UInt8.lt_iff_toNat_lt.mpr hlt)
  have hhigh : ∀ c : UInt8, c.toNat < 128 → ¬ b ≤ c := fun c hc hle =>
    absurd (UInt8.le_iff_toNat_le.mp hle) (by omega)
  unfold hexValue
  rw [if_neg fun hd => hhigh _ (by decide) hd.2, if_neg fun hd => hhigh _ (by decide) hd.2,
    if_neg fun hd => hhigh _ (by decide) hd.2]

/-- The digits of a byte are read as that byte. -/
theorem percentDecode_byte (b : UInt8) (s : List UInt8) :
    percentDecode ('%'.toUInt8 :: hexDigit (b.toNat / 16) :: hexDigit (b.toNat % 16) :: s) =
      (percentDecode s).map (b :: ·) := by
  have hb := b.toNat_lt
  have hback : UInt8.ofNat (16 * (b.toNat / 16) + b.toNat % 16) = b := by
    rw [Nat.div_add_mod, UInt8.ofNat_toNat]
  rw [percentDecode_percent, hexValue_hexDigit _ (by omega), hexValue_hexDigit _ (by omega)]
  cases percentDecode s with
  | none => rfl
  | some t => exact congrArg (fun c => some (c :: t)) hback

theorem percentDecode_percent_percent (s : List UInt8) :
    percentDecode ('%'.toUInt8 :: '%'.toUInt8 :: s) = none := by
  match s with
  | [] => rfl
  | low :: s => rfl

/-- A byte that is not ASCII is no digit, and neither is the `%` it is replaced by. -/
theorem percentDecode_hexEscape (s : List UInt8) :
    percentDecode (hexEscapeNonASCII s) = percentDecode s := by
  have hsign : ('%'.toUInt8 : UInt8) < 0x80 := by decide
  induction s using decode_induction with
  | nil => rfl
  | byte b s hb ih =>
      by_cases hascii : b < 0x80
      · rw [hexEscape_cons_ascii hascii, percentDecode_cons hb, ih, percentDecode_cons hb]
      · rw [hexEscape_cons_not_ascii hascii, percentDecode_byte, ih, percentDecode_cons hb]
  | escape high low s ih =>
      rw [hexEscape_cons_ascii hsign, percentDecode_percent]
      by_cases hhigh : high < 0x80
      · rw [hexEscape_cons_ascii hhigh]
        by_cases hlow : low < 0x80
        · rw [hexEscape_cons_ascii hlow, percentDecode_percent, ih]
        · rw [hexEscape_cons_not_ascii hlow, percentDecode_percent, hexValue_of_not_ascii hlow]
          rfl
      · rw [hexEscape_cons_not_ascii hhigh, percentDecode_percent_percent,
          hexValue_of_not_ascii hhigh]
        rfl
  | short s hs =>
      rw [hexEscape_cons_ascii hsign, percentDecode_short hs]
      match s with
      | [] => rfl
      | [b] =>
          by_cases hascii : b < 0x80
          · rw [hexEscape_cons_ascii hascii]
            rfl
          · rw [hexEscape_cons_not_ascii hascii, percentDecode_percent_percent]

/-! ## Cutting -/

/-- `strings.Cut`: what is before the first `c`, and what is behind it if there is one. -/
def cut (c : UInt8) (s : List UInt8) : List UInt8 × Option (List UInt8) :=
  match s.dropWhile (· ≠ c) with
  | [] => (s, none)
  | _ :: rest => (s.takeWhile (· ≠ c), some rest)

theorem cut_cons_self (c : UInt8) (s : List UInt8) : cut c (c :: s) = ([], some s) := by
  simp [cut]

theorem cut_cons_ne {b c : UInt8} (h : b ≠ c) (s : List UInt8) :
    cut c (b :: s) = (b :: (cut c s).1, (cut c s).2) := by
  unfold cut
  rw [List.dropWhile_cons_of_pos (by simpa using h), List.takeWhile_cons_of_pos (by simpa using h)]
  split <;> rfl

theorem cut_append {c : UInt8} {s : List UInt8} (h : c ∉ s) (t : List UInt8) :
    cut c (s ++ t) = (s ++ (cut c t).1, (cut c t).2) := by
  induction s with
  | nil => rfl
  | cons b s ih =>
      have hb : b ≠ c := fun hb => h (hb ▸ List.mem_cons_self)
      rw [List.cons_append, cut_cons_ne hb, ih fun hs => h (List.mem_cons_of_mem _ hs)]
      rfl

theorem length_cut (c : UInt8) (s : List UInt8) :
    (cut c s).1.length ≤ s.length ∧ (c ∈ s → (cut c s).1.length < s.length) := by
  induction s with
  | nil => exact ⟨Nat.le_refl _, fun h => absurd h List.not_mem_nil⟩
  | cons b s ih =>
      by_cases hb : b = c
      · subst hb
        rw [cut_cons_self]
        simp
      · rw [cut_cons_ne hb]
        refine ⟨Nat.succ_le_succ ih.1, ?_⟩
        intro hmem
        rcases List.mem_cons.mp hmem with heq | hmem
        · exact absurd heq.symm hb
        · exact Nat.succ_lt_succ (ih.2 hmem)

theorem cut_of_not_mem {c : UInt8} {s : List UInt8} (h : c ∉ s) : cut c s = (s, none) := by
  have := cut_append h []
  rw [List.append_nil] at this
  rw [this]
  simp [cut]

/-! ## The parts of a URL -/

def parse (s : List UInt8) : Option Url :=
  let (s, fragment) := cut '#'.toUInt8 s
  let (s, query) := cut '?'.toUInt8 s
  match cut ':'.toUInt8 s with
  | (scheme, some (a :: b :: rest)) =>
      if a = '/'.toUInt8 ∧ b = '/'.toUInt8 then
        (percentDecode (rest.dropWhile (· ≠ '/'.toUInt8))).map fun path =>
          { scheme, host := rest.takeWhile (· ≠ '/'.toUInt8), path, query, fragment }
      else none
  | _ => none

/-- None of these characters is in the bytes. -/
def Free (cs : List Char) (s : List UInt8) : Prop := ∀ c ∈ cs, c.toUInt8 ∉ s

instance (cs : List Char) (s : List UInt8) : Decidable (Free cs s) :=
  List.decidableBAll (fun c : Char => c.toUInt8 ∉ s) cs

@[simp] theorem free_cons {c : Char} {cs : List Char} {s : List UInt8} :
    Free (c :: cs) s ↔ c.toUInt8 ∉ s ∧ Free cs s := List.forall_mem_cons

@[simp] theorem free_nil (s : List UInt8) : Free [] s := fun _ h => absurd h List.not_mem_nil

/-- What a URL begins with, up to the path. -/
structure Origin where
  scheme : List UInt8
  host : List UInt8
  scheme_free : Free [':', '#', '?'] scheme
  host_free : Free ['/', '#', '?'] host

/-- The URL of a path, which is put behind the host as it is. -/
def Origin.url (o : Origin) (path : List UInt8) : List UInt8 :=
  o.scheme ++ (':'.toUInt8 :: '/'.toUInt8 :: '/'.toUInt8 :: (o.host ++ path))

/-- Whoever reads the URL goes to this host and asks for this path. -/
def Reads (url host path : List UInt8) : Prop :=
  ∃ u, parse url = some u ∧ u.host = host ∧ u.path = path

/-- What is left of a path without the query and the fragment. -/
def rawPath (path : List UInt8) : List UInt8 := (cut '?'.toUInt8 (cut '#'.toUInt8 path).1).1

theorem cut_url {o : Origin} {c : UInt8} (hscheme : c ∉ o.scheme) (hhost : c ∉ o.host)
    (hcolon : c ≠ ':'.toUInt8) (hslash : c ≠ '/'.toUInt8) (path : List UInt8) :
    cut c (o.url path) = (o.url (cut c path).1, (cut c path).2) := by
  unfold Origin.url
  rw [cut_append hscheme, cut_cons_ne hcolon.symm, cut_cons_ne hslash.symm, cut_cons_ne hslash.symm,
    cut_append hhost]

theorem rawPath_slash (path : List UInt8) :
    rawPath ('/'.toUInt8 :: path) = '/'.toUInt8 :: rawPath path := by
  unfold rawPath
  rw [cut_cons_ne (by decide), cut_cons_ne (by decide)]

theorem parse_url (o : Origin) (path : List UInt8) :
    parse (o.url ('/'.toUInt8 :: path)) =
      (percentDecode (rawPath ('/'.toUInt8 :: path))).map fun decoded =>
        { scheme := o.scheme, host := o.host, path := decoded
          query := (cut '?'.toUInt8 (cut '#'.toUInt8 ('/'.toUInt8 :: path)).1).2
          fragment := (cut '#'.toUInt8 ('/'.toUInt8 :: path)).2 } := by
  have hscheme := o.scheme_free
  have hhost := o.host_free
  simp only [free_cons, free_nil, and_true] at hscheme hhost
  have hother : ∀ b ∈ o.host, decide (b ≠ '/'.toUInt8) = true := fun b hb =>
    decide_eq_true fun heq => hhost.1 (heq ▸ hb)
  unfold parse
  rw [cut_url hscheme.2.1 hhost.2.1 (by decide) (by decide)]
  dsimp only
  rw [cut_url hscheme.2.2 hhost.2.2 (by decide) (by decide)]
  dsimp only
  rw [show (cut '?'.toUInt8 (cut '#'.toUInt8 ('/'.toUInt8 :: path)).1).1 =
    rawPath ('/'.toUInt8 :: path) from rfl, rawPath_slash, Origin.url,
    cut_append hscheme.1, cut_cons_self, List.append_nil]
  dsimp only
  rw [if_pos ⟨rfl, rfl⟩, List.takeWhile_append_of_pos hother, List.dropWhile_append_of_pos hother,
    List.takeWhile_cons_of_neg (by decide), List.dropWhile_cons_of_neg (by decide), List.append_nil]

/-- Scheme and host do not matter for the path. -/
theorem reads_url (o : Origin) (path target : List UInt8) :
    Reads (o.url ('/'.toUInt8 :: path)) o.host target ↔
      percentDecode (rawPath ('/'.toUInt8 :: path)) = some target := by
  unfold Reads
  rw [parse_url]
  constructor
  · rintro ⟨u, hu, _, rfl⟩
    obtain ⟨decoded, hdecoded, rfl⟩ := Option.map_eq_some_iff.mp hu
    exact hdecoded
  · intro h
    rw [h]
    exact ⟨_, rfl, rfl, rfl⟩

theorem decode_rawPath_iff {path : List UInt8} :
    percentDecode (rawPath path) = some path ↔ Free ['#', '?', '%'] path := by
  simp only [free_cons, free_nil, and_true]
  constructor
  · intro h
    -- every step makes the path shorter or leaves it alone, and in the end it is as long as before
    have hdecode := (length_percentDecode _ h).1
    have hquery := length_cut '?'.toUInt8 (cut '#'.toUInt8 path).1
    have hfragment := length_cut '#'.toUInt8 path
    unfold rawPath at h hdecode
    have hnofragment : '#'.toUInt8 ∉ path := fun hmem => absurd (hfragment.2 hmem) (by omega)
    rw [cut_of_not_mem hnofragment] at h hdecode hquery
    have hnoquery : '?'.toUInt8 ∉ path := fun hmem =>
      absurd (hquery.2 hmem) (Nat.not_lt.mpr hdecode)
    rw [cut_of_not_mem hnoquery] at h
    exact ⟨hnofragment, hnoquery, percentDecode_eq_self_iff.mp h⟩
  · rintro ⟨hnofragment, hnoquery, hplain⟩
    unfold rawPath
    rw [cut_of_not_mem hnofragment, cut_of_not_mem hnoquery]
    exact percentDecode_of_plain hplain

/--
**A path in a URL.** It is read as it was put in if and only if none of its bytes means
something there.
-/
theorem reads_iff (o : Origin) (path : List UInt8) :
    Reads (o.url ('/'.toUInt8 :: path)) o.host ('/'.toUInt8 :: path) ↔
      Free ['#', '?', '%'] ('/'.toUInt8 :: path) :=
  (reads_url o path _).trans decode_rawPath_iff

/-! ## Escaping what is not ASCII -/

theorem not_mem_escapeByte {b c : UInt8} (hne : c ≠ b) (hpercent : c ≠ '%'.toUInt8)
    (hdigit : hexValue c = none) : c ∉ escapeByte b := by
  have hb := b.toNat_lt
  have hhex : ∀ n < 16, c ≠ hexDigit n := by
    rintro n hn rfl
    rw [hexValue_hexDigit n hn] at hdigit
    exact absurd hdigit (by simp)
  unfold escapeByte
  split
  · simpa using hne
  · simp only [List.mem_cons, List.not_mem_nil, or_false, not_or]
    exact ⟨hpercent, hhex _ (by omega), hhex _ (by omega)⟩

/-- Escaping hides no delimiter and makes none. -/
theorem cut_hexEscape {c : UInt8} (hascii : c < 0x80) (hpercent : c ≠ '%'.toUInt8)
    (hdigit : hexValue c = none) (s : List UInt8) :
    (cut c (hexEscapeNonASCII s)).1 = hexEscapeNonASCII (cut c s).1 := by
  induction s with
  | nil => rfl
  | cons b s ih =>
      have hcons : hexEscapeNonASCII (b :: s) = escapeByte b ++ hexEscapeNonASCII s :=
        List.flatMap_cons
      rw [hcons]
      by_cases hb : b = c
      · subst hb
        rw [escapeByte, if_pos hascii, List.singleton_append, cut_cons_self, cut_cons_self]
        rfl
      · rw [cut_append (not_mem_escapeByte (Ne.symm hb) hpercent hdigit), cut_cons_ne hb, ih]
        exact List.flatMap_cons.symm

theorem rawPath_hexEscape (path : List UInt8) :
    rawPath (hexEscapeNonASCII path) = hexEscapeNonASCII (rawPath path) := by
  unfold rawPath
  rw [cut_hexEscape (by decide) (by decide) (by decide),
    cut_hexEscape (by decide) (by decide) (by decide)]

/-- The escaped URL leads to the same place. -/
theorem reads_escape (o : Origin) (hascii : Ascii (o.scheme ++ o.host)) (path target : List UInt8) :
    Reads (hexEscapeNonASCII (o.url ('/'.toUInt8 :: path))) o.host target ↔
      Reads (o.url ('/'.toUInt8 :: path)) o.host target := by
  have hscheme : Ascii o.scheme := fun b hb => hascii b (List.mem_append_left _ hb)
  have hhost : Ascii o.host := fun b hb => hascii b (List.mem_append_right _ hb)
  have hslash : hexEscapeNonASCII ('/'.toUInt8 :: path) =
      '/'.toUInt8 :: hexEscapeNonASCII path := rfl
  have hsep : ∀ t, hexEscapeNonASCII (':'.toUInt8 :: '/'.toUInt8 :: '/'.toUInt8 :: t) =
      ':'.toUInt8 :: '/'.toUInt8 :: '/'.toUInt8 :: hexEscapeNonASCII t := fun _ => rfl
  have hurl : hexEscapeNonASCII (o.url ('/'.toUInt8 :: path)) =
      o.url ('/'.toUInt8 :: hexEscapeNonASCII path) := by
    rw [Origin.url, hexEscape_append, hexEscape_of_ascii hscheme, hsep, hexEscape_append,
      hexEscape_of_ascii hhost, hslash, Origin.url]
  rw [hurl, reads_url, reads_url, ← hslash, rawPath_hexEscape, percentDecode_hexEscape]

end Url

end GammaFlow
