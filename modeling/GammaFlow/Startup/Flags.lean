import Mathlib.Data.List.DropRight
import GammaFlow.Raft.Types

/-!
# Flags

How a server learns who it is and who the others are. `Parse` reads the list of peers and
two maps of addresses from three flags. What it asks of them is that every pair has an
equals sign (`parse_eq`); that the peers are the other servers, each of them once and with
an address, is up to whoever writes the flags. What is written without spaces is read back
(`fields_intercalate`, `bindings_pairs`).

The command line itself is read by the `flag` package. In an error the pair is quoted as `%q`
does, as far as ASCII goes.
-/

namespace GammaFlow.Startup

open GammaFlow.Raft

/-! ## Text -/

/-- `unicode.IsSpace`. -/
def isSpace (c : Char) : Bool :=
  let n := c.toNat
  9 ≤ n && n ≤ 13 || n == 0x20 || n == 0x85 || n == 0xa0 || n == 0x1680 ||
    0x2000 ≤ n && n ≤ 0x200a || n == 0x2028 || n == 0x2029 || n == 0x202f || n == 0x205f ||
    n == 0x3000

def trimSpace (s : List Char) : List Char := (s.dropWhile isSpace).rdropWhile isSpace

/-- The two parts of `strings.SplitN(pair, "=", 2)`, if there are two. -/
def splitPair (pair : List Char) : Option (List Char × List Char) :=
  match pair.dropWhile (· != '=') with
  | [] => none
  | _ :: after => some (pair.takeWhile (· != '='), after)

/-! ## Parsing -/

/-- The flags, with the defaults that `Parse` gives them. -/
structure Flags where
  nodeID : String := ""
  peers : String := ""
  httpAddr : String := ":8080"
  grpcAddr : String := ":9090"
  dataDir : String := "./data"
  peerGRPC : String := ""
  peerHTTP : String := ""

/-- A map of addresses; the first pair with a name is the one that counts. -/
abbrev AddrMap := List (NodeID × String)

/-- `config.Config`. -/
structure Settings where
  nodeID : NodeID
  peers : List NodeID
  httpAddr : String
  grpcAddr : String
  dataDir : String
  peerGRPCAddrs : AddrMap
  peerHTTPAddrs : AddrMap

inductive ParseError where
  | nodeIDRequired
  /-- A pair that has no equals sign, and what the error is wrapped in. -/
  | invalidPair (context : String) (pair : List Char)
  deriving DecidableEq

/-- The escapes of two characters in `strconv.Quote`. -/
def shortEscapes : List (Char × Char) :=
  [('\x07', 'a'), ('\x08', 'b'), ('\x0c', 'f'), ('\n', 'n'), ('\x0d', 'r'), ('\t', 't'),
    ('\x0b', 'v'), ('\\', '\\'), ('"', '"')]

def quoteChar (c : Char) : List Char :=
  match shortEscapes.lookup c with
  | some e => ['\\', e]
  | none =>
      if c.toNat < 0x20 ∨ c.toNat = 0x7f then
        ['\\', 'x', Nat.digitChar (c.toNat / 16), Nat.digitChar (c.toNat % 16)]
      else [c]

/-- `%q`. Beyond ASCII every character is taken to be printable. -/
def quote (s : List Char) : List Char := '"' :: s.flatMap quoteChar ++ ['"']

def ParseError.error : ParseError → String
  | .nodeIDRequired => "--node-id is required"
  | .invalidPair context pair => context ++ "invalid address pair: " ++ String.ofList (quote pair) ++
      " (expected node-id=host:port)"

example : (ParseError.invalidPair "parse peer-grpc-addrs: " "b\tc".toList).error =
    "parse peer-grpc-addrs: invalid address pair: \"b\\tc\" (expected node-id=host:port)" := by
  decide +kernel

/-- The loop over the list of peers. -/
def addPeers : List (List Char) → List NodeID → List NodeID
  | [], peers => peers
  | p :: rest, peers =>
      let p := trimSpace p
      addPeers rest (if p != [] then peers ++ [String.ofList p] else peers)

def parsePeers (peers : String) : List NodeID :=
  if peers != "" then addPeers (peers.toList.splitOn ',') [] else []

/-- The loop of `parseAddrMap`. -/
def addPairs : List (List Char) → AddrMap → Except (List Char) AddrMap
  | [], m => .ok m
  | pair :: rest, m =>
      let pair := trimSpace pair
      if pair = [] then addPairs rest m
      else match splitPair pair with
        | none => .error pair
        | some (id, addr) =>
            addPairs rest ((String.ofList (trimSpace id), String.ofList (trimSpace addr)) :: m)

def parseAddrMap (s : String) : Except (List Char) AddrMap := addPairs (s.toList.splitOn ',') []

/-- The addresses of a flag, none if it is not set. -/
def parseAddrs (context s : String) : Except ParseError AddrMap :=
  if s != "" then (parseAddrMap s).mapError (.invalidPair context) else .ok []

/-- `Parse`, after the flags have been read. -/
def parse (f : Flags) : Except ParseError Settings := do
  if f.nodeID = "" then throw .nodeIDRequired
  let grpc ← parseAddrs "parse peer-grpc-addrs: " f.peerGRPC
  let http ← parseAddrs "parse peer-http-addrs: " f.peerHTTP
  return ⟨f.nodeID, parsePeers f.peers, f.httpAddr, f.grpcAddr, f.dataDir, grpc, http⟩

/-! ## What is accepted -/

/-- What is left of the pieces of a flag when they are trimmed and blank ones left out. -/
def pieces (ps : List (List Char)) : List (List Char) := (ps.map trimSpace).filter (· != [])

def fields (s : String) : List (List Char) := pieces (s.toList.splitOn ',')

/-- The pair that a piece stands for. -/
def binding (piece : List Char) : Option (NodeID × String) :=
  (splitPair piece).map fun part =>
    (String.ofList (trimSpace part.1), String.ofList (trimSpace part.2))

/-- The pairs of a flag, last one first. -/
def bindings (s : String) : AddrMap := ((fields s).filterMap binding).reverse

/-- The first piece of a flag that is no pair. -/
def unsigned (s : String) : Option (List Char) := (fields s).find? ('=' ∉ ·)

/-- What the flags say. -/
def Flags.settings (f : Flags) : Settings where
  nodeID := f.nodeID
  peers := (fields f.peers).map String.ofList
  httpAddr := f.httpAddr
  grpcAddr := f.grpcAddr
  dataDir := f.dataDir
  peerGRPCAddrs := bindings f.peerGRPC
  peerHTTPAddrs := bindings f.peerHTTP

@[simp] theorem pieces_nil : pieces [] = [] := rfl

theorem pieces_cons (p : List Char) (ps : List (List Char)) :
    pieces (p :: ps) = if trimSpace p = [] then pieces ps else trimSpace p :: pieces ps := by
  unfold pieces
  by_cases h : trimSpace p = [] <;> simp [h]

theorem fields_empty : fields "" = [] := by decide

theorem splitPair_eq_none_iff {pair : List Char} : splitPair pair = none ↔ '=' ∉ pair := by
  unfold splitPair
  constructor
  · intro h hmem
    split at h
    · rename_i hnil
      exact absurd (List.dropWhile_eq_nil_iff.mp hnil '=' hmem) (by simp)
    · exact absurd h (by simp)
  · intro h
    have hnil : pair.dropWhile (· != '=') = [] := by
      rw [List.dropWhile_eq_nil_iff]
      intro c hc
      exact bne_iff_ne.mpr fun heq => h (heq ▸ hc)
    rw [hnil]

theorem addPeers_eq (ps : List (List Char)) : ∀ peers : List NodeID,
    addPeers ps peers = peers ++ (pieces ps).map String.ofList := by
  induction ps with
  | nil => intro peers; simp [addPeers]
  | cons p ps ih =>
      intro peers
      rw [addPeers, ih, pieces_cons]
      by_cases h : trimSpace p = [] <;> simp [h]

/-- The loop stops at the first piece without an equals sign, and else takes all of them. -/
theorem addPairs_eq (ps : List (List Char)) : ∀ m : AddrMap, addPairs ps m =
    ((pieces ps).find? ('=' ∉ ·)).elim (.ok (((pieces ps).filterMap binding).reverse ++ m)) .error := by
  induction ps with
  | nil => intro m; rfl
  | cons p ps ih =>
      intro m
      rw [addPairs, pieces_cons]
      by_cases hblank : trimSpace p = []
      · simp only [hblank, if_true]
        exact ih m
      simp only [hblank, if_false]
      cases hsplit : splitPair (trimSpace p) with
      | none =>
          have hbad := splitPair_eq_none_iff.mp hsplit
          rw [List.find?_cons_of_pos (by simpa using hbad)]
          rfl
      | some part =>
          have hgood : '=' ∈ trimSpace p := by
            by_contra hbad
            exact absurd (splitPair_eq_none_iff.mpr hbad) (by simp [hsplit])
          rw [List.find?_cons_of_neg (by simpa using hgood),
            List.filterMap_cons_some (by rw [binding, hsplit]; rfl), List.reverse_cons,
            List.append_assoc]
          exact ih _

theorem parsePeers_eq (s : String) : parsePeers s = (fields s).map String.ofList := by
  unfold parsePeers
  split
  · rw [addPeers_eq]; rfl
  · rename_i h
    rw [show s = "" by simpa using h, fields_empty]
    rfl

theorem parseAddrs_eq (context s : String) : parseAddrs context s =
    (unsigned s).elim (.ok (bindings s)) fun pair => .error (.invalidPair context pair) := by
  unfold parseAddrs
  split
  · have hmap : parseAddrMap s = (unsigned s).elim (.ok (bindings s)) .error := by
      rw [parseAddrMap, addPairs_eq, List.append_nil]
      rfl
    rw [hmap]
    cases unsigned s <;> rfl
  · rename_i h
    rw [show s = "" by simpa using h]
    unfold unsigned bindings
    rw [fields_empty]
    rfl

/-- **What `Parse` makes of flags.** They are refused for the first thing that is missing. -/
theorem parse_eq (f : Flags) : parse f =
    if f.nodeID = "" then .error .nodeIDRequired
    else (unsigned f.peerGRPC).elim
      ((unsigned f.peerHTTP).elim (.ok f.settings)
        fun pair => .error (.invalidPair "parse peer-http-addrs: " pair))
      fun pair => .error (.invalidPair "parse peer-grpc-addrs: " pair) := by
  unfold parse
  split
  · rfl
  rw [parsePeers_eq, parseAddrs_eq, parseAddrs_eq]
  cases unsigned f.peerGRPC with
  | some pair => rfl
  | none => cases unsigned f.peerHTTP <;> rfl

/-! ## What is written is read back -/

/-- Text that can stand in a list: no comma and no space around it. -/
structure Listable (s : String) : Prop where
  trimmed : trimSpace s.toList = s.toList
  comma : ',' ∉ s.toList

theorem trimSpace_eq_self_iff {s : List Char} : trimSpace s = s ↔
    (∀ c ∈ s.head?, isSpace c = false) ∧ ∀ c ∈ s.getLast?, isSpace c = false := by
  have hends : trimSpace s = s ↔ s.dropWhile isSpace = s ∧ s.rdropWhile isSpace = s := by
    unfold trimSpace
    constructor
    · intro h
      -- nothing is lost at either end, or the rest would be shorter
      have hdrop : s.dropWhile isSpace = s := by
        refine (List.dropWhile_suffix isSpace).eq_of_length_le ?_
        have := (List.rdropWhile_prefix isSpace (s.dropWhile isSpace)).length_le
        rwa [h] at this
      rw [hdrop] at h
      exact ⟨hdrop, h⟩
    · rintro ⟨hdrop, hrdrop⟩
      rw [hdrop, hrdrop]
  rw [hends, List.dropWhile_eq_self_iff, List.rdropWhile_eq_self_iff]
  cases s with
  | nil => simp
  | cons c s => simp [List.getLast?_eq_some_getLast]

theorem splitPair_append {id addr : List Char} (h : '=' ∉ id) :
    splitPair (id ++ '=' :: addr) = some (id, addr) := by
  have hid : ∀ c ∈ id, (c != '=') = true := fun c hc => bne_iff_ne.mpr fun heq => h (heq ▸ hc)
  unfold splitPair
  rw [List.dropWhile_append_of_pos hid, List.takeWhile_append_of_pos hid]
  simp

/-- A name with its address, as it stands in a flag. -/
def pairText (b : NodeID × String) : String := b.1 ++ "=" ++ b.2

theorem toList_pairText (b : NodeID × String) :
    (pairText b).toList = b.1.toList ++ '=' :: b.2.toList := by
  simp [pairText]

/-- A pair can stand in a list if both sides can, the equals sign being no space. -/
theorem Listable.pairText {b : NodeID × String} (hid : Listable b.1) (haddr : Listable b.2) :
    Listable (pairText b) := by
  obtain ⟨hfirst, _⟩ := trimSpace_eq_self_iff.mp hid.trimmed
  obtain ⟨_, hlast⟩ := trimSpace_eq_self_iff.mp haddr.trimmed
  have hsign : isSpace '=' = false := by decide
  refine ⟨trimSpace_eq_self_iff.mpr ⟨?_, ?_⟩, ?_⟩
  · rw [toList_pairText]
    cases h : b.1.toList with
    | nil => simpa using hsign
    | cons c s => simpa [h] using hfirst
  · rw [toList_pairText]
    cases h : b.2.toList with
    | nil => simpa using hsign
    | cons c s => simpa [h, List.getLast?_append] using hlast
  · rw [toList_pairText]
    simp [hid.comma, haddr.comma]

theorem fields_intercalate {ps : List String} (hlist : ∀ p ∈ ps, Listable p) (hne : "" ∉ ps) :
    fields (",".intercalate ps) = ps.map String.toList := by
  cases ps with
  | nil => exact fields_empty
  | cons p ps =>
      generalize hall : p :: ps = all at hlist hne ⊢
      have hsplit : (",".intercalate all).toList.splitOn ',' = all.map String.toList := by
        rw [String.toList_intercalate]
        refine List.splitOn_intercalate ',' ?_ (by simp [← hall])
        intro l hl
        obtain ⟨q, hq, rfl⟩ := List.mem_map.mp hl
        exact (hlist q hq).comma
      have htrim : (all.map String.toList).map trimSpace = all.map String.toList := by
        rw [List.map_map]
        exact List.map_congr_left fun q hq => (hlist q hq).trimmed
      unfold fields pieces
      rw [hsplit, htrim, List.filter_eq_self]
      intro l hl
      obtain ⟨q, hq, rfl⟩ := List.mem_map.mp hl
      have hq' : q ≠ "" := fun heq => hne (heq ▸ hq)
      simpa using hq'

section Map

variable {bs : AddrMap} (hid : ∀ b ∈ bs, Listable b.1 ∧ '=' ∉ b.1.toList) (haddr : ∀ b ∈ bs, Listable b.2)

include hid haddr

theorem fields_pairs :
    fields (",".intercalate (bs.map pairText)) = bs.map fun b => (pairText b).toList := by
  rw [fields_intercalate ?_ ?_, List.map_map]
  · rfl
  · intro p hp
    obtain ⟨b, hb, rfl⟩ := List.mem_map.mp hp
    exact (hid b hb).1.pairText (haddr b hb)
  · intro hp
    obtain ⟨b, _, hb⟩ := List.mem_map.mp hp
    have := congrArg String.toList hb
    rw [toList_pairText] at this
    exact absurd this (by simp)

/-- **A map is read back**, last pair first. -/
theorem bindings_pairs : bindings (",".intercalate (bs.map pairText)) = bs.reverse := by
  have hread : ∀ b ∈ bs, binding (pairText b).toList = some b := by
    intro b hb
    rw [binding, toList_pairText, splitPair_append (hid b hb).2, Option.map_some,
      (hid b hb).1.trimmed, (haddr b hb).trimmed, String.ofList_toList, String.ofList_toList]
  rw [bindings, fields_pairs hid haddr, List.filterMap_map]
  exact congrArg List.reverse ((List.filterMap_congr hread).trans List.filterMap_some)

theorem unsigned_pairs : unsigned (",".intercalate (bs.map pairText)) = none := by
  rw [unsigned, fields_pairs hid haddr, List.find?_eq_none]
  intro piece hp
  obtain ⟨b, _, rfl⟩ := List.mem_map.mp hp
  rw [toList_pairText]
  simp

end Map

end GammaFlow.Startup
