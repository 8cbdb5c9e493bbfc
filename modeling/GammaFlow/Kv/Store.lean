import Mathlib.Logic.Function.Basic
import GammaFlow.Lib.Utf8
import GammaFlow.Storage.Codec

/-!
# The key-value store

The state machine behind the log: a map, and commands that are stored in the log as
JSON. A key takes two ways to the map. A read looks it up as it came in the path of the
request; a write goes through the text of a command first, and text can only hold what
is text. Keys that are not valid UTF-8 arrive changed, several of them as the same key
(`command_key_iff`).

Of `encoding/json` it is used that a command that was marshalled is unmarshalled with
its strings as `Utf8.sanitize` has them.
-/

namespace GammaFlow.Kv

open GammaFlow.Storage (Bytes)
open GammaFlow.Utf8 (Valid sanitize bytesOf)

structure Command where
  op : Bytes
  key : Bytes
  value : Bytes
  deriving DecidableEq, Repr

def cmdPut : Bytes := bytesOf "put"

def cmdDelete : Bytes := bytesOf "delete"

/-- The command as its text can hold it. -/
def Command.sanitized (c : Command) : Command := ⟨sanitize c.op, sanitize c.key, sanitize c.value⟩

/-- `encoding/json` on `Command`. -/
structure CommandJson where
  marshal : Command → Bytes
  unmarshal : Bytes → Option Command
  unmarshal_marshal : ∀ c, unmarshal (marshal c) = some c.sanitized

/-! ## The map -/

structure KVStore where
  data : Bytes → Option Bytes

inductive ApplyError where
  /-- `unmarshal command: …` -/
  | unmarshal
  /-- `unknown command op: …` -/
  | unknownOp (op : Bytes)
  deriving DecidableEq, Repr

namespace KVStore

def newKVStore : KVStore := ⟨fun _ => none⟩

def get (s : KVStore) (key : Bytes) : Option Bytes := s.data key

def put (s : KVStore) (key value : Bytes) : KVStore := ⟨Function.update s.data key (some value)⟩

def delete (s : KVStore) (key : Bytes) : KVStore := ⟨Function.update s.data key none⟩

/-- The `switch` of `Apply`. -/
def perform (s : KVStore) (cmd : Command) : KVStore × Option ApplyError :=
  if cmd.op = cmdPut then (s.put cmd.key cmd.value, none)
  else if cmd.op = cmdDelete then (s.delete cmd.key, none)
  else (s, some (.unknownOp cmd.op))

def apply (J : CommandJson) (s : KVStore) (cmdBytes : Bytes) : KVStore × Option ApplyError :=
  match J.unmarshal cmdBytes with
  | none => (s, some .unmarshal)
  | some cmd => s.perform cmd

end KVStore

def serializePut (J : CommandJson) (key value : Bytes) : Bytes := J.marshal ⟨cmdPut, key, value⟩

def serializeDelete (J : CommandJson) (key : Bytes) : Bytes := J.marshal ⟨cmdDelete, key, []⟩

/-- `strings.TrimPrefix`. -/
def trimPrefix (s start : Bytes) : Bytes := if start.isPrefixOf s then s.drop start.length else s

/-- The key `handleKV` finds in the path of a request, or none: key is required. -/
def kvKey (path : Bytes) : Option Bytes :=
  let key := trimPrefix path (bytesOf "/kv/")
  if key = [] then none else some key

/-! ## What commands do -/

namespace KVStore

@[simp] theorem get_put_self (s : KVStore) (key value : Bytes) :
    (s.put key value).get key = some value := Function.update_self _ _ _

theorem get_put_ne (s : KVStore) {key k : Bytes} (h : k ≠ key) (value : Bytes) :
    (s.put key value).get k = s.get k := Function.update_of_ne h _ _

@[simp] theorem get_delete_self (s : KVStore) (key : Bytes) : (s.delete key).get key = none :=
  Function.update_self _ _ _

theorem get_delete_ne (s : KVStore) {key k : Bytes} (h : k ≠ key) :
    (s.delete key).get k = s.get k := Function.update_of_ne h _ _

theorem apply_marshal (J : CommandJson) (s : KVStore) (c : Command) :
    s.apply J (J.marshal c) = s.perform c.sanitized := by
  unfold apply
  rw [J.unmarshal_marshal]

theorem apply_serializePut (J : CommandJson) (s : KVStore) (key value : Bytes) :
    s.apply J (serializePut J key value) = (s.put (sanitize key) (sanitize value), none) := by
  have hop : sanitize cmdPut = cmdPut := Utf8.sanitize_of_valid (Utf8.valid_encode _)
  unfold serializePut
  rw [apply_marshal, perform, Command.sanitized, if_pos hop]

theorem apply_serializeDelete (J : CommandJson) (s : KVStore) (key : Bytes) :
    s.apply J (serializeDelete J key) = (s.delete (sanitize key), none) := by
  have hop : sanitize cmdDelete = cmdDelete := Utf8.sanitize_of_valid (Utf8.valid_encode _)
  have hne : cmdDelete ≠ cmdPut := by decide
  unfold serializeDelete
  rw [apply_marshal, perform, Command.sanitized]
  dsimp only
  rw [hop, if_neg hne, if_pos rfl]

end KVStore

/--
**Which keys commands preserve.** For every store and every valid value, a `put` of the
key makes a lookup of the key find the value, a `delete` makes it find nothing, and
both leave what is found under every other key: exactly if the key is valid UTF-8.
-/
theorem command_key_iff (J : CommandJson) (key : Bytes) :
    (∀ (s : KVStore) (value : Bytes), Valid value →
      (s.apply J (serializePut J key value)).1.get key = some value ∧
      (∀ k, k ≠ key → (s.apply J (serializePut J key value)).1.get k = s.get k) ∧
      (s.apply J (serializeDelete J key)).1.get key = none ∧
      (∀ k, k ≠ key → (s.apply J (serializeDelete J key)).1.get k = s.get k)) ↔
    Valid key := by
  simp only [KVStore.apply_serializePut, KVStore.apply_serializeDelete]
  constructor
  · intro h
    by_contra hinvalid
    -- what was put arrives under another key
    have hne : key ≠ sanitize key := fun he => hinvalid (Utf8.sanitize_eq_iff.mp he.symm)
    have hput := (h KVStore.newKVStore [] (Utf8.valid_encode [])).1
    rw [KVStore.get_put_ne _ hne] at hput
    exact absurd hput (by simp [KVStore.newKVStore, KVStore.get])
  · intro hvalid s value hvalue
    rw [Utf8.sanitize_of_valid hvalid, Utf8.sanitize_of_valid hvalue]
    exact ⟨s.get_put_self key value, fun k hk => s.get_put_ne hk value, s.get_delete_self key,
      fun k hk => s.get_delete_ne hk⟩

/-! ## A format to run examples with -/

/-- A string behind its length in unary. -/
def field (s : Bytes) : Bytes := List.replicate s.length 1 ++ 0 :: s

/-- The first field, and the bytes after it. -/
def readField (bytes : Bytes) : Bytes × Bytes :=
  let n := (bytes.takeWhile (· = 1)).length
  ((bytes.drop (n + 1)).take n, (bytes.drop (n + 1)).drop n)

theorem readField_field (s rest : Bytes) : readField (field s ++ rest) = (s, rest) := by
  have hlen : ((field s ++ rest).takeWhile (· = 1)).length = s.length := by
    unfold field
    rw [List.append_assoc, List.takeWhile_append_of_pos (by simp)]
    simp
  have hdrop : (field s ++ rest).drop (s.length + 1) = s ++ rest := by
    unfold field
    rw [List.append_assoc, ← List.drop_drop, List.drop_left' (List.length_replicate ..)]
    rfl
  unfold readField
  dsimp only
  rw [hlen, hdrop, List.take_left, List.drop_left]

/-- Commands as three fields. -/
def plainCommands : CommandJson where
  marshal c := field (sanitize c.op) ++ (field (sanitize c.key) ++ (field (sanitize c.value) ++ []))
  unmarshal bytes :=
    let (op, bytes) := readField bytes
    let (key, bytes) := readField bytes
    let (value, _) := readField bytes
    some ⟨op, key, value⟩
  unmarshal_marshal c := by
    simp only [readField_field]
    rfl

/--
The keys of `/kv/%FF` and `/kv/%FE`: after a `put` of the first it is not found, and a
`put` of the second overwrites what the first has left under `U+FFFD`.
-/
theorem lost_keys :
    kvKey (bytesOf "/kv/" ++ [0xff]) = some [0xff] ∧ kvKey (bytesOf "/kv/" ++ [0xfe]) = some [0xfe] ∧
    (KVStore.newKVStore.apply plainCommands
      (serializePut plainCommands [0xff] (bytesOf "1"))).1.get [0xff] = none ∧
    (KVStore.newKVStore.apply plainCommands
      (serializePut plainCommands [0xff] (bytesOf "1"))).1.get [0xef, 0xbf, 0xbd] =
        some (bytesOf "1") ∧
    serializePut plainCommands [0xff] (bytesOf "2") =
      serializePut plainCommands [0xfe] (bytesOf "2") := by
  decide +kernel

end GammaFlow.Kv
