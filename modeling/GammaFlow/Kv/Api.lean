import GammaFlow.Kv.History
import GammaFlow.Kv.Location

/-!
# The HTTP interface

A request is served by a goroutine of its own. Between the sections that take the lock of
the node or of the store it holds nothing, so everything may have changed from one of them
to the next: the check that the node leads, the call of `SubmitCommand`, each look for its
result, the lookup in the store, the look for the leader to redirect to.

All calls of `SubmitCommand` come from here. What a step can do is said once (`Moves`, `Steps`).

`encoding/json` on the body of a request, and the text of a write-ahead log error, are
parameters (`Setup`). `SerializePut` and `SerializeDelete` cannot fail on the strings they are
given, so the branches for that are left out, as is the page that `http.Redirect` sends along.
-/

namespace GammaFlow.Kv

open GammaFlow.Raft
open GammaFlow.Storage (Journal Bytes)
open GammaFlow.Utf8 (bytesOf)

/-! ## Requests and answers -/

/-- The methods that `handleKV` tells apart. -/
inductive Method where
  | get
  | put
  | delete
  | other
  deriving DecidableEq, Repr

structure Request where
  /-- The node whose handler it reaches. -/
  node : NodeID
  method : Method
  /-- `r.URL.Path`. -/
  path : Bytes
  /-- The body, unless reading it fails. -/
  body : Option Bytes
  deriving DecidableEq, Repr

/-- A value in the map that `writeJSON` encodes. -/
inductive Field where
  | text (bytes : Bytes)
  | number (n : Nat)
  deriving DecidableEq, Repr

structure Response where
  status : Nat
  fields : List (String × Field)
  location : Option Bytes
  deriving DecidableEq, Repr

namespace Response

def error (status : Nat) (text : Bytes) : Response := ⟨status, [("error", .text text)], none⟩

def keyRequired : Response := error 400 (bytesOf "key is required")

def methodNotAllowed : Response := error 405 (bytesOf "method not allowed")

def bodyUnread : Response := error 400 (bytesOf "failed to read body")

def bodyInvalid : Response := error 400 (bytesOf "invalid JSON body")

def timedOut : Response := error 500 (bytesOf "request timed out")

/-- The answer of `handleGet` to a lookup. -/
def looked (key : Bytes) : Option Bytes → Response
  | some value => ⟨200, [("key", .text key), ("value", .text value)], none⟩
  | none => error 404 (bytesOf "key not found")

/-- The answer of `redirectToLeader`. -/
def redirected (path : Bytes) (r : Redirection) : Response :=
  match r with
  | .noLeader => error 503 (bytesOf "no leader elected — try again later")
  | .addressUnknown => error 503 (bytesOf "leader address unknown")
  | .to _ _ => ⟨307, [], Kv.location path r⟩

end Response

/-- What a request writes. -/
inductive Write where
  | put (key value : Bytes)
  | delete (key : Bytes)
  deriving DecidableEq, Repr

namespace Write

def command (J : CommandJson) : Write → Raft.Command
  | .put key value => serializePut J key value
  | .delete key => serializeDelete J key

/-- The answer when `SubmitCommand` has returned an index and a term. -/
def done (index term : Nat) : Write → Response
  | .put key value => ⟨200, [("key", .text key), ("value", .text value), ("index", .number index),
      ("term", .number term)], none⟩
  | .delete key => ⟨200, [("status", .text (bytesOf "deleted")), ("key", .text key)], none⟩

end Write

/-- How much of a body is read: `1 << 20` bytes. -/
def maxRequestBody : Nat := 1 <<< 20

/-- What the handlers are given, the encoding of bodies and the text of errors included. -/
structure Setup where
  json : CommandJson
  /-- `json.Unmarshal` into the struct of a `PUT`: the value, or an error. -/
  bodyValue : Bytes → Option Bytes
  peerHTTPAddrs : NodeID → NodeID → Option String
  walError : Bytes

/-! ## The state of a node -/

/-- `State.String`. -/
def stateText : Raft.State → String
  | .follower => "follower"
  | .candidate => "candidate"
  | .leader => "leader"

structure NodeStatus where
  nodeID : NodeID
  state : String
  term : Nat
  commitIndex : Nat
  lastApplied : Nat
  peers : List NodeID
  leaderID : NodeID
  deriving DecidableEq, Repr

/-- `Status`, one section. -/
def status {ω : Type} (n : Node ω) : NodeStatus :=
  ⟨n.id, stateText n.state, n.currentTerm, n.commitIndex, n.lastApplied, n.peers, n.leaderID⟩

/-- `handleReadyz`. The conversions to `int64` are exact below `2 ^ 63`. -/
def handleReadyz {ω : Type} (n : Node ω) : Response :=
  let lag : Int := ((status n).commitIndex : Int) - (status n).lastApplied
  if lag > 10 then ⟨503, [("status", .text (bytesOf "not ready")),
    ("reason", .text (bytesOf ("apply lag: " ++ toString lag)))], none⟩
  else ⟨200, [("status", .text (bytesOf "ready"))], none⟩

/-! ## Handlers -/

/-- Where the goroutine of a request is. -/
inductive Phase where
  | arrived
  /-- `IsLeader` has returned true. -/
  | leading (key : Bytes)
  /-- In the loop of `SubmitCommand`. -/
  | waiting
  | redirecting
  | answered (response : Response)
  deriving DecidableEq, Repr

structure Handler where
  request : Request
  phase : Phase
  /-- What has been appended to the log for the request. -/
  write : Option Write
  /-- The call of `SubmitCommand`, once it waits. -/
  call : Option Nat
  deriving DecidableEq, Repr

def Handler.new (r : Request) : Handler := ⟨r, .arrived, none, none⟩

/-- What `handlePut` makes of a body. -/
def handlePut (A : Setup) (key : Bytes) (body : Option Bytes) : Except Response Write :=
  match body with
  | none => .error .bodyUnread
  | some body =>
      match A.bodyValue (body.take maxRequestBody) with
      | none => .error .bodyInvalid
      | some value => .ok (.put key value)

/-- What a handler that has found its node leading is going to submit, if it is to write. -/
def Request.write (A : Setup) (r : Request) (key : Bytes) : Option (Except Response Write) :=
  match r.method with
  | .put => some (handlePut A key r.body)
  | .delete => some (.ok (.delete key))
  | .get => none
  | .other => none

/-- `handleKV` and the first check of the handler it calls. -/
def handleKV {ω : Type} (n : Node ω) (r : Request) : Phase :=
  match kvKey r.path with
  | none => .answered .keyRequired
  | some key =>
      if r.method = .other then .answered .methodNotAllowed
      else if n.isLeader then .leading key
      else .redirecting

/-- The servers and the requests they have been sent. -/
structure Api (ω : Type) where
  server : Server ω
  handlers : List Handler

inductive ApiEvent where
  /-- Anything that is not the work of a handler. -/
  | background (ev : ServerEvent)
  | arrive (r : Request)
  /-- The handler of a request runs its next section. -/
  | handle (k : Nat)
  /-- The time of a call of `SubmitCommand` is up. -/
  | expire (k : Nat)
  deriving DecidableEq, Repr

/-- Calling `SubmitCommand`, and waiting for it, is left to the handlers. -/
def ServerEvent.byHandler : ServerEvent → Bool
  | .event (.submitCommand _ _) => true
  | .event (.pollSubmit _) => true
  | .event (.timeoutSubmit _) => true
  | _ => false

namespace Api

variable {ω : Type}

def init (cfg : Config ω) : Api ω := ⟨Server.init cfg, []⟩

def node (a : Api ω) (i : NodeID) : Node ω := a.server.cluster.nodes i

/-- Handler `k` has come to be `h`, and the servers `s`. -/
def next (a : Api ω) (s : Server ω) (k : Nat) (h : Handler) : Api ω :=
  ⟨s, a.handlers.set k h⟩

variable [Journal ω] (A : Setup) (cfg : Config ω)

/-- The first section of `SubmitCommand`. -/
def submit (a : Api ω) (k : Nat) (h : Handler) (wr : Write) : Option (Api ω) :=
  let command := wr.command A.json
  (a.server.step A.json cfg (.event (.submitCommand h.request.node command))).map fun s =>
    match ((a.node h.request.node).submitCommand command).2 with
    | .errNotLeader => a.next s k { h with phase := .redirecting }
    | .errPersist =>
        a.next s k { h with phase := .answered (.error 500 A.walError), write := some wr }
    | .appended _ _ => a.next s k { h with
        phase := .waiting, write := some wr, call := some a.server.cluster.submits.length }

/-- A look at the result. -/
def poll (a : Api ω) (k : Nat) (h : Handler) (wr : Write) (c : Nat) : Option (Api ω) :=
  match a.server.cluster.submits[c]? with
  | none => none
  | some call =>
      (a.server.step A.json cfg (.event (.pollSubmit c))).map fun s =>
        match (a.node call.node).pollSubmit call.index call.term with
        | .errNotLeader => a.next s k { h with phase := .redirecting }
        | .done => a.next s k { h with phase := .answered (wr.done call.index call.term) }
        | .waiting => { a with server := s }

/-- The next section of a handler. -/
def handle (a : Api ω) (k : Nat) (h : Handler) : Option (Api ω) :=
  match h.phase with
  | .arrived => some (a.next a.server k
      { h with phase := handleKV (a.node h.request.node) h.request })
  | .leading key =>
      match h.request.write A key with
      | none => some (a.next a.server k { h with
          phase := .answered (.looked key ((a.server.consumers h.request.node).store.get key)) })
      | some (.error response) => some (a.next a.server k { h with phase := .answered response })
      | some (.ok wr) => a.submit A cfg k h wr
  | .waiting =>
      match h.write, h.call with
      | some wr, some c => a.poll A cfg k h wr c
      | _, _ => none
  | .redirecting => some (a.next a.server k { h with
      phase := .answered (.redirected h.request.path
        ((a.node h.request.node).redirectToLeader (A.peerHTTPAddrs h.request.node))) })
  | .answered _ => none

/-- `ErrTimeout`. -/
def expire (a : Api ω) (k : Nat) (h : Handler) : Option (Api ω) :=
  match h.phase, h.call with
  | .waiting, some c =>
      (a.server.step A.json cfg (.event (.timeoutSubmit c))).map fun s =>
        a.next s k { h with phase := .answered .timedOut }
  | _, _ => none

def step (a : Api ω) : ApiEvent → Option (Api ω)
  | .background ev =>
      if ev.byHandler then none
      else (a.server.step A.json cfg ev).map fun s => { a with server := s }
  | .arrive r =>
      if r.node ∈ cfg.ids then some { a with handlers := a.handlers ++ [Handler.new r] } else none
  | .handle k => a.handlers[k]?.bind (a.handle A cfg k)
  | .expire k => a.handlers[k]?.bind (a.expire A cfg k)

/-- A run of the servers and their handlers. -/
def Run : Api ω → Api ω → Prop := Execution.Run (step A cfg)

def Reachable (a : Api ω) : Prop := Run A cfg (init cfg) a

end Api

/-! ## Steps -/

variable {ω : Type} [Journal ω] {A : Setup} {cfg : Config ω} {a a' : Api ω}

/-- What one section of a handler makes of it, while the servers become `s'`. -/
inductive Moves (A : Setup) (cfg : Config ω) (a : Api ω) (s' : Server ω) (h : Handler) :
    Handler → Prop
  | checked : h.phase = .arrived →
      Moves A cfg a s' h { h with phase := handleKV (a.node h.request.node) h.request }
  | looked (key : Bytes) : h.phase = .leading key → h.request.write A key = none →
      s' = a.server →
      Moves A cfg a s' h { h with
        phase := .answered (.looked key ((a.server.consumers h.request.node).store.get key)) }
  | invalid (key : Bytes) (r : Response) : h.phase = .leading key →
      h.request.write A key = some (.error r) →
      Moves A cfg a s' h { h with phase := .answered r }
  | notLeader : (∃ key, h.phase = .leading key) ∨ h.phase = .waiting →
      Moves A cfg a s' h { h with phase := .redirecting }
  | unlogged (key : Bytes) (wr : Write) : h.phase = .leading key →
      h.request.write A key = some (.ok wr) →
      Moves A cfg a s' h { h with phase := .answered (.error 500 A.walError), write := some wr }
  | appended (key : Bytes) (wr : Write) (c : Submit) : h.phase = .leading key →
      h.request.write A key = some (.ok wr) → c.node = h.request.node →
      c.command = wr.command A.json →
      s'.cluster.submits = a.server.cluster.submits ++ [c] →
      Moves A cfg a s' h { h with
        phase := .waiting, write := some wr, call := some a.server.cluster.submits.length }
  | done (wr : Write) (k : Nat) (c : Submit) : h.phase = .waiting → h.write = some wr →
      h.call = some k → s'.cluster.Acked k c →
      Moves A cfg a s' h { h with phase := .answered (wr.done c.index c.term) }
  | expired : h.phase = .waiting → h.call.isSome →
      Moves A cfg a s' h { h with phase := .answered .timedOut }
  | redirected : h.phase = .redirecting →
      Moves A cfg a s' h { h with
        phase := .answered (.redirected h.request.path
          ((a.node h.request.node).redirectToLeader (A.peerHTTPAddrs h.request.node))) }

omit [Journal ω] in
/-- Whoever has been answered does not move. -/
theorem not_answered_of_moves {s' : Server ω} {h h' : Handler} (hm : Moves A cfg a s' h h')
    (r : Response) : h.phase ≠ .answered r := by
  intro hr
  cases hm with
  | notLeader hph =>
      rw [hr] at hph
      exact absurd hph (by simp)
  | _ => simp_all

/-- The cluster after an event. -/
theorem act_of_step {J : CommandJson} {s s' : Server ω} {ev : Event}
    (hs : s.step J cfg (.event ev) = some s') : s.cluster.act cfg ev = some s'.cluster := by
  rw [Server.step] at hs
  split at hs
  · exact absurd hs (by simp)
  · obtain ⟨w, hw, rfl⟩ := Option.map_eq_some_iff.mp hs
    exact hw

/-- What a call of `SubmitCommand` records if it appends. -/
theorem submits_of_appended {w w' : Cluster ω} {i : NodeID} {command : Raft.Command}
    {index term : Nat} (hs : w.act cfg (.submitCommand i command) = some w')
    (hres : ((w.nodes i).submitCommand command).2 = .appended index term) :
    w'.submits = w.submits ++ [⟨i, command, index, term⟩] := by
  rw [Cluster.act] at hs
  split at hs
  · dsimp only at hs
    rw [hres] at hs
    rw [← Option.some.inj hs]
  · exact absurd hs (by simp)

/-- A look that finds the entry applied acknowledges the call. -/
theorem acked_of_poll {w w' : Cluster ω} {k : Nat} {c : Submit}
    (hs : w.act cfg (.pollSubmit k) = some w') (hc : w.submits[k]? = some c)
    (hdone : (w.nodes c.node).pollSubmit c.index c.term = .done) : w'.Acked k c := by
  rw [Cluster.act, hc] at hs
  dsimp only at hs
  split at hs
  · exact absurd hs (by simp)
  · rw [hdone] at hs
    obtain rfl := Option.some.inj hs
    exact ⟨hc, List.mem_append_right _ (List.mem_singleton_self _)⟩

theorem moves_submit {k : Nat} {h : Handler} {key : Bytes} {wr : Write}
    (hs : a.submit A cfg k h wr = some a') (hphase : h.phase = .leading key)
    (hwr : h.request.write A key = some (.ok wr)) :
    a.server.step A.json cfg (.event (.submitCommand h.request.node (wr.command A.json)))
      = some a'.server ∧
    ∃ h', a'.handlers = a.handlers.set k h' ∧ Moves A cfg a a'.server h h' := by
  unfold Api.submit at hs
  obtain ⟨s, hstep, rfl⟩ := Option.map_eq_some_iff.mp hs
  split
  · exact ⟨hstep, _, rfl, .notLeader (Or.inl ⟨key, hphase⟩)⟩
  · exact ⟨hstep, _, rfl, .unlogged key wr hphase hwr⟩
  · rename_i index term hres
    exact ⟨hstep, _, rfl, .appended key wr ⟨h.request.node, wr.command A.json, index, term⟩ hphase hwr
      rfl rfl (submits_of_appended (act_of_step hstep) hres)⟩

theorem moves_poll {k c : Nat} {h : Handler} {wr : Write}
    (hs : a.poll A cfg k h wr c = some a') (hphase : h.phase = .waiting) (hwr : h.write = some wr)
    (hc : h.call = some c) :
    a.server.step A.json cfg (.event (.pollSubmit c)) = some a'.server ∧
    (a'.handlers = a.handlers ∨
      ∃ h', a'.handlers = a.handlers.set k h' ∧ Moves A cfg a a'.server h h') := by
  unfold Api.poll at hs
  split at hs
  · exact absurd hs (by simp)
  rename_i call hcall
  obtain ⟨s, hstep, rfl⟩ := Option.map_eq_some_iff.mp hs
  split
  · exact ⟨hstep, Or.inr ⟨_, rfl, .notLeader (Or.inr hphase)⟩⟩
  · rename_i hdone
    exact ⟨hstep, Or.inr ⟨_, rfl, .done wr c call hphase hwr hc
      (acked_of_poll (act_of_step hstep) hcall hdone)⟩⟩
  · exact ⟨hstep, Or.inl rfl⟩

/-- What a step can do: the servers move, a request arrives, or one handler moves on. -/
structure Steps (A : Setup) (cfg : Config ω) (a a' : Api ω) : Prop where
  server : a'.server = a.server ∨ ∃ ev, a.server.step A.json cfg ev = some a'.server ∧
    ∀ i command, ev = .event (.submitCommand i command) → ∃ h ∈ a.handlers, ∃ key wr,
      h.phase = .leading key ∧ h.request.write A key = some (.ok wr) ∧ h.request.node = i ∧
        command = wr.command A.json
  handlers : a'.handlers = a.handlers ∨
    (∃ r, a'.handlers = a.handlers ++ [Handler.new r]) ∨
    ∃ k h h', a.handlers[k]? = some h ∧ a'.handlers = a.handlers.set k h' ∧
      Moves A cfg a a'.server h h'

/-- A section of a handler that leaves the servers alone. -/
theorem steps_of_next {k : Nat} {h h' : Handler} (hk : a.handlers[k]? = some h)
    (hm : Moves A cfg a a.server h h') : Steps A cfg a (a.next a.server k h') :=
  ⟨Or.inl rfl, Or.inr (Or.inr ⟨k, h, h', hk, rfl, hm⟩)⟩

theorem steps_of_handle {k : Nat} {h : Handler} (hk : a.handlers[k]? = some h)
    (hs : a.handle A cfg k h = some a') : Steps A cfg a a' := by
  unfold Api.handle at hs
  split at hs
  · rename_i hphase
    obtain rfl := Option.some.inj hs
    exact steps_of_next hk (.checked hphase)
  · rename_i key hphase
    split at hs
    · rename_i hwr
      obtain rfl := Option.some.inj hs
      exact steps_of_next hk (.looked key hphase hwr rfl)
    · rename_i r hwr
      obtain rfl := Option.some.inj hs
      exact steps_of_next hk (.invalid key r hphase hwr)
    · rename_i wr hwr
      obtain ⟨hstep, h', hset, hm⟩ := moves_submit hs hphase hwr
      refine ⟨Or.inr ⟨_, hstep, ?_⟩, Or.inr (Or.inr ⟨k, h, h', hk, hset, hm⟩)⟩
      intro i command he
      injection he with he
      injection he with hi hcommand
      exact ⟨h, List.mem_of_getElem? hk, key, wr, hphase, hwr, hi, hcommand.symm⟩
  · rename_i hphase
    split at hs
    · rename_i wr c hwr hc
      obtain ⟨hstep, hset⟩ := moves_poll hs hphase hwr hc
      refine ⟨Or.inr ⟨_, hstep, fun i command he => by injection he with he; injection he⟩, ?_⟩
      rcases hset with heq | ⟨h', hset, hm⟩
      · exact Or.inl heq
      · exact Or.inr (Or.inr ⟨k, h, h', hk, hset, hm⟩)
    · exact absurd hs (by simp)
  · rename_i hphase
    obtain rfl := Option.some.inj hs
    exact steps_of_next hk (.redirected hphase)
  · exact absurd hs (by simp)

theorem steps_of_expire {k : Nat} {h : Handler} (hk : a.handlers[k]? = some h)
    (hs : a.expire A cfg k h = some a') : Steps A cfg a a' := by
  unfold Api.expire at hs
  split at hs
  · rename_i c hphase hc
    obtain ⟨s, hstep, rfl⟩ := Option.map_eq_some_iff.mp hs
    refine ⟨Or.inr ⟨_, hstep, fun i command he => by injection he with he; injection he⟩,
      Or.inr (Or.inr ⟨k, h, _, hk, rfl, .expired hphase (by rw [hc]; rfl)⟩)⟩
  · exact absurd hs (by simp)

/-- **What a step can do.** -/
theorem steps_of_step {ev : ApiEvent} (hs : a.step A cfg ev = some a') : Steps A cfg a a' := by
  cases ev with
  | background ev =>
      rw [Api.step] at hs
      split at hs
      · exact absurd hs (by simp)
      · rename_i hby
        obtain ⟨s, hstep, rfl⟩ := Option.map_eq_some_iff.mp hs
        refine ⟨Or.inr ⟨ev, hstep, ?_⟩, Or.inl rfl⟩
        intro i command he
        rw [he] at hby
        exact absurd rfl hby
  | arrive r =>
      rw [Api.step] at hs
      split at hs
      · obtain rfl := Option.some.inj hs
        exact ⟨Or.inl rfl, Or.inr (Or.inl ⟨r, rfl⟩)⟩
      · exact absurd hs (by simp)
  | handle k =>
      obtain ⟨h, hk, hs⟩ := Option.bind_eq_some_iff.mp hs
      exact steps_of_handle hk hs
  | expire k =>
      obtain ⟨h, hk, hs⟩ := Option.bind_eq_some_iff.mp hs
      exact steps_of_expire hk hs

theorem Steps.run (h : Steps A cfg a a') : Server.Run A.json cfg a.server a'.server := by
  rcases h.server with heq | ⟨ev, hstep, _⟩
  · rw [heq]; exact Relation.ReflTransGen.refl
  · exact Relation.ReflTransGen.single ⟨ev, hstep⟩

/-- A handler after a step is one from before, a new one, or the one that has moved on. -/
theorem Steps.handler (h : Steps A cfg a a') {k : Nat} {hd : Handler}
    (hk : a'.handlers[k]? = some hd) : a.handlers[k]? = some hd ∨
      (k = a.handlers.length ∧ ∃ r, hd = Handler.new r) ∨
      ∃ hd₀, a.handlers[k]? = some hd₀ ∧ Moves A cfg a a'.server hd₀ hd ∧
        ∀ j, j ≠ k → a'.handlers[j]? = a.handlers[j]? := by
  rcases h.handlers with heq | ⟨r, heq⟩ | ⟨j, hd₀, hd', hj, heq, hm⟩
  · rw [heq] at hk; exact Or.inl hk
  · rw [heq] at hk
    rcases Nat.lt_or_ge k a.handlers.length with hlt | hge
    · rw [List.getElem?_append_left hlt] at hk; exact Or.inl hk
    · rw [List.getElem?_append_right hge, List.getElem?_singleton] at hk
      split at hk
      · exact Or.inr (Or.inl ⟨by omega, r, (Option.some.inj hk).symm⟩)
      · exact absurd hk (by simp)
  · by_cases hjk : j = k
    · subst hjk
      rw [heq, List.getElem?_set_self (List.getElem?_eq_some_iff.mp hj).1] at hk
      obtain rfl := Option.some.inj hk
      refine Or.inr (Or.inr ⟨hd₀, hj, hm, ?_⟩)
      intro i hi
      rw [heq, List.getElem?_set_ne (Ne.symm hi)]
    · rw [heq, List.getElem?_set_ne hjk] at hk
      exact Or.inl hk

end GammaFlow.Kv
