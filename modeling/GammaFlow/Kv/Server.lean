import GammaFlow.Kv.Store
import GammaFlow.Raft.Clients

/-!
# The server

`main` puts a goroutine between the log and the store: it receives entries from the
channel that the apply loop sends them on, and applies their commands. The channel has
room for 256 entries, so an entry that was sent need not have been received, and one
that was received need not have been applied.

The apply loop sets `lastApplied` once it has sent, and `SubmitCommand` returns once
`lastApplied` is there. So a write may be acknowledged before the store has it. It never
is, if the consumer has caught up whenever `lastApplied` is set (`acked_in_store`).
-/

namespace GammaFlow.Kv

open GammaFlow.Raft
open GammaFlow.Storage (Journal)
open GammaFlow.Utf8 (bytesOf)

/-- The apply consumer of `main`, and its store. -/
structure Consumer where
  /-- Received, and not dealt with yet. -/
  inHand : Option LogEntry
  /-- What it has dealt with, in order. -/
  applied : List LogEntry
  store : KVStore

namespace Consumer

def init : Consumer := ⟨none, [], KVStore.newKVStore⟩

/-- Everything it has received. -/
def received (c : Consumer) : List LogEntry := c.applied ++ c.inHand.toList

/-- `store.Apply`, for an entry with a command; an error is only logged. -/
def applyEntry (J : CommandJson) (store : KVStore) (e : LogEntry) : KVStore :=
  if e.command.length > 0 then (store.apply J e.command).1 else store

end Consumer

structure Server (ω : Type) where
  cluster : Cluster ω
  consumers : NodeID → Consumer

inductive ServerEvent where
  | event (ev : Event)
  | receive (i : NodeID)
  | apply (i : NodeID)
  deriving DecidableEq, Repr

/-- What `make(chan LogEntry, 256)` holds. -/
def applyChCap : Nat := 256

namespace Server

variable {ω : Type}

def init (cfg : Config ω) : Server ω := ⟨Cluster.init cfg, fun _ => Consumer.init⟩

/-- The entries in the channel of `i`. -/
def buffered (s : Server ω) (i : NodeID) : List LogEntry :=
  (s.cluster.applyCh i).drop (s.consumers i).received.length

/-- A send on a full channel blocks. -/
def blocked (s : Server ω) : Event → Bool
  | .sendApply i => applyChCap ≤ (s.buffered i).length
  | _ => false

def setConsumer (s : Server ω) (i : NodeID) (c : Consumer) : Server ω :=
  { s with consumers := Function.update s.consumers i c }

variable [Journal ω] (J : CommandJson) (cfg : Config ω)

def step (s : Server ω) : ServerEvent → Option (Server ω)
  | .event ev =>
      if s.blocked ev then none
      else (s.cluster.act cfg ev).map fun w => { s with cluster := w }
  | .receive i =>
      match (s.consumers i).inHand, s.buffered i with
      | none, e :: _ => some (s.setConsumer i { s.consumers i with inHand := some e })
      | _, _ => none
  | .apply i =>
      match (s.consumers i).inHand with
      | none => none
      | some e =>
          let c := s.consumers i
          some (s.setConsumer i
            ⟨none, c.applied ++ [e], Consumer.applyEntry J c.store e⟩)

/-- A run of servers. -/
def exec : Server ω → List ServerEvent → Option (Server ω) := Execution.exec (step J cfg)

def Run : Server ω → Server ω → Prop := Execution.Run (step J cfg)

def Reachable (s : Server ω) : Prop := Run J cfg (init cfg) s

end Server

variable {ω : Type} [Journal ω] {J : CommandJson} {cfg : Config ω} {s s' : Server ω}

/-! ## Steps -/

/-- What a step can do. -/
theorem step_cases {ev : ServerEvent} (hs : s.step J cfg ev = some s') :
    (∃ e w, ev = .event e ∧ s.cluster.act cfg e = some w ∧ s' = { s with cluster := w }) ∨
    (∃ i e rest, (s.consumers i).inHand = none ∧ s.buffered i = e :: rest ∧
      s' = s.setConsumer i { s.consumers i with inHand := some e }) ∨
    (∃ i e, (s.consumers i).inHand = some e ∧ s' = s.setConsumer i ⟨none,
      (s.consumers i).applied ++ [e], Consumer.applyEntry J (s.consumers i).store e⟩) := by
  cases ev with
  | event e =>
      rw [Server.step] at hs
      split at hs
      · exact absurd hs (by simp)
      · obtain ⟨w, hw, rfl⟩ := Option.map_eq_some_iff.mp hs
        exact Or.inl ⟨e, w, rfl, hw, rfl⟩
  | receive i =>
      rw [Server.step] at hs
      split at hs
      · rename_i e rest hhand hbuf
        exact Or.inr (Or.inl ⟨i, e, rest, hhand, hbuf, (Option.some.inj hs).symm⟩)
      · exact absurd hs (by simp)
  | apply i =>
      rw [Server.step] at hs
      split at hs
      · exact absurd hs (by simp)
      · rename_i e hhand
        exact Or.inr (Or.inr ⟨i, e, hhand, (Option.some.inj hs).symm⟩)

/-! ## The channel -/

/-- Only the apply loop sends on a channel, one entry at a time. -/
theorem act_sends {w w' : Cluster ω} {ev : Event} (hs : w.act cfg ev = some w') (i : NodeID) :
    w'.applyCh i = w.applyCh i ∨
      (ev = .sendApply i ∧ ∃ e, w'.applyCh i = w.applyCh i ++ [e]) := by
  cases acts_of_act hs with
  | sendApply j e es m htask =>
      by_cases hij : i = j
      · subst hij
        exact Or.inr ⟨rfl, e, Function.update_self _ _ _⟩
      · exact Or.inl (Function.update_of_ne hij _ _)
  | _ => exact Or.inl rfl

theorem step_unblocked {ev : Event} (hs : s.step J cfg (.event ev) = some s') :
    s.blocked ev = false := by
  rw [Server.step] at hs
  split at hs
  · exact absurd hs (by simp)
  · rename_i h; exact Bool.not_eq_true _ ▸ h

/-- What a consumer has made of the entries sent to it, however far it has come. -/
structure Follows (J : CommandJson) (s : Server ω) (i : NodeID) : Prop where
  received : (s.consumers i).received <+: s.cluster.applyCh i
  store : (s.consumers i).store =
    (s.consumers i).applied.foldl (Consumer.applyEntry J) KVStore.newKVStore
  room : (s.cluster.applyCh i).length ≤ (s.consumers i).received.length + applyChCap

section Consumers

omit [Journal ω]

variable {i : NodeID} {c : Consumer} {e : LogEntry}

/-- The next entry in the channel follows what was received. -/
theorem received_snoc {rest : List LogEntry} (h : (s.consumers i).received <+: s.cluster.applyCh i)
    (hbuf : s.buffered i = e :: rest) :
    (s.consumers i).received ++ [e] <+: s.cluster.applyCh i := by
  obtain ⟨tail, htail⟩ := h
  unfold Server.buffered at hbuf
  rw [← htail, List.drop_left] at hbuf
  exact ⟨rest, by rw [← htail, hbuf, List.append_assoc]; rfl⟩

theorem received_inHand (c : Consumer) (h : c.inHand = none) (e : LogEntry) :
    ({ c with inHand := some e } : Consumer).received = c.received ++ [e] := by
  unfold Consumer.received
  rw [h]
  simp

theorem received_applied (c : Consumer) (h : c.inHand = some e) (store : KVStore) :
    (⟨none, c.applied ++ [e], store⟩ : Consumer).received = c.received := by
  unfold Consumer.received
  rw [h]
  simp

theorem setConsumer_self (s : Server ω) (i : NodeID) (c : Consumer) :
    (s.setConsumer i c).consumers i = c := Function.update_self _ _ _

theorem setConsumer_ne (s : Server ω) {j : NodeID} (h : j ≠ i) (c : Consumer) :
    (s.setConsumer i c).consumers j = s.consumers j := Function.update_of_ne h _ _

/-- A consumer that receives, or applies, what comes next still follows. -/
theorem follows_setConsumer (h : ∀ j, Follows J s j)
    (hrec : c.received <+: s.cluster.applyCh i)
    (hlen : (s.consumers i).received.length ≤ c.received.length)
    (hstore : c.store = c.applied.foldl (Consumer.applyEntry J) KVStore.newKVStore) :
    ∀ j, Follows J (s.setConsumer i c) j := by
  intro j
  by_cases hij : j = i
  · subst hij
    refine ⟨?_, ?_, ?_⟩
    · rw [setConsumer_self]; exact hrec
    · rw [setConsumer_self]; exact hstore
    · rw [setConsumer_self]
      exact Nat.le_trans (h j).room (Nat.add_le_add_right hlen _)
  · have hother := setConsumer_ne s hij c
    exact ⟨by rw [hother]; exact (h j).received, by rw [hother]; exact (h j).store,
      by rw [hother]; exact (h j).room⟩

end Consumers

theorem follows_act {ev : Event} {w : Cluster ω} (hs : s.cluster.act cfg ev = some w)
    (hfree : s.blocked ev = false) {i : NodeID} (h : Follows J s i) :
    Follows J { s with cluster := w } i := by
  rcases act_sends hs i with hch | ⟨rfl, e, hch⟩
  · exact ⟨by rw [hch]; exact h.received, h.store, by rw [hch]; exact h.room⟩
  · -- there was room for the entry
    have hroom : (s.buffered i).length < applyChCap := by
      simpa [Server.blocked] using hfree
    unfold Server.buffered at hroom
    rw [List.length_drop] at hroom
    refine ⟨?_, h.store, ?_⟩
    · rw [hch]; exact h.received.trans (List.prefix_append _ _)
    · rw [hch, List.length_append, List.length_singleton]
      dsimp only
      omega

/-- Every consumer follows, at every moment of every run. -/
theorem follows_reachable (hs : Server.Reachable J cfg s) :
    Cluster.Reachable cfg s.cluster ∧ ∀ i, Follows J s i := by
  refine Execution.Run.invariant hs ?_ ?_
  · exact ⟨Relation.ReflTransGen.refl, fun i => ⟨List.nil_prefix, rfl, Nat.zero_le _⟩⟩
  · rintro s₁ ev s₂ _ ⟨hw, h⟩ hstep
    rcases step_cases hstep with ⟨e, w, rfl, hact, rfl⟩ | ⟨i, e, rest, hhand, hbuf, rfl⟩ |
      ⟨i, e, hhand, rfl⟩
    · exact ⟨hw.tail ⟨e, hact⟩, fun i => follows_act hact (step_unblocked hstep) (h i)⟩
    · have hrec := received_inHand (s₁.consumers i) hhand e
      refine ⟨hw, follows_setConsumer h ?_ ?_ (h i).store⟩
      · rw [hrec]; exact received_snoc (h i).received hbuf
      · rw [hrec, List.length_append]; exact Nat.le_add_right _ _
    · have hrec := received_applied (s₁.consumers i) hhand
        (Consumer.applyEntry J (s₁.consumers i).store e)
      refine ⟨hw, follows_setConsumer h ?_ (Nat.le_of_eq (by rw [hrec])) ?_⟩
      · rw [hrec]; exact (h i).received
      · rw [List.foldl_append, ← (h i).store]
        rfl

/-! ## Consumers that keep up -/

/-- The consumer has dealt with everything sent, whenever the apply loop sets `lastApplied`. -/
def CaughtUp (s : Server ω) : ServerEvent → Prop
  | .event (.finishApply i) => (s.consumers i).applied = s.cluster.applyCh i
  | _ => True

omit [Journal ω] in
instance (s : Server ω) : (ev : ServerEvent) → Decidable (CaughtUp s ev)
  | .event (.finishApply i) =>
      inferInstanceAs (Decidable ((s.consumers i).applied = s.cluster.applyCh i))
  | .event (.startElection _) | .event (.requestVote _) | .event (.voteReply _)
  | .event (.sendHeartbeats _) | .event (.readHeartbeat _) | .event (.replicateLog _ _)
  | .event (.appendEntries _) | .event (.appendReply _) | .event (.submitCommand _ _)
  | .event (.pollSubmit _) | .event (.timeoutSubmit _) | .event (.collectApply _)
  | .event (.sendApply _) | .receive _ | .apply _ => isTrue trivial

/-- A consumer that has dealt with all that its node counts as applied. -/
structure Fed (J : CommandJson) (s : Server ω) (i : NodeID) : Prop extends Follows J s i where
  applied : (s.cluster.nodes i).lastApplied ≤ (s.consumers i).applied.length

/-- Sending more, or being done with sending, changes nothing for a consumer that kept up. -/
theorem applied_act (hw : Cluster.Reachable cfg s.cluster) {ev : Event} {w : Cluster ω}
    (hs : s.cluster.act cfg ev = some w) (hup : CaughtUp s (.event ev)) {i : NodeID}
    (h : (s.cluster.nodes i).lastApplied ≤ (s.consumers i).applied.length) :
    (w.nodes i).lastApplied ≤ (s.consumers i).applied.length := by
  rcases act_lastApplied hs i with hla | rfl
  · rw [hla]; exact h
  rcases act_applyCh hs i with ⟨_, _, hla⟩ | ⟨_, _, _, _, _, hn⟩ | ⟨_, _, _, _, _, _, hn⟩ |
    ⟨m, hbusy, _, _, hn⟩
  · rw [hla]; exact h
  · rw [hn]; exact h
  · rw [hn]; exact h
  · -- the end of a round: all of it was sent, and so applied
    have hall := ((sent_reachable hw i).busy _ _ hbusy).1
    have hle := ((applyInv_reachable hw).task i _ m hbusy).2
    have hlen := commitIndex_le hw i
    have hcaught : (s.consumers i).applied = s.cluster.applyCh i := hup
    rw [hn, hcaught]
    rw [List.append_nil] at hall
    rw [hall, List.length_take]
    dsimp only
    omega

omit [Journal ω] in
theorem applied_setConsumer {i : NodeID} {c : Consumer}
    (h : ∀ j, (s.cluster.nodes j).lastApplied ≤ (s.consumers j).applied.length)
    (hmore : (s.consumers i).applied <+: c.applied) (j : NodeID) :
    (s.cluster.nodes j).lastApplied ≤ ((s.setConsumer i c).consumers j).applied.length := by
  by_cases hij : j = i
  · subst hij
    rw [setConsumer_self]
    exact (h j).trans hmore.length_le
  · rw [setConsumer_ne s hij]
    exact h j

theorem fed_run {evs : List ServerEvent} (hx : (Server.init cfg).exec J cfg evs = some s)
    (hup : Execution.Always (Server.step J cfg) (fun s ev _ => CaughtUp s ev) (Server.init cfg) evs)
    (i : NodeID) : Fed J s i := by
  have happlied : ∀ i, (s.cluster.nodes i).lastApplied ≤ (s.consumers i).applied.length := by
    refine (Execution.Always.invariant (I := fun _ s => Cluster.Reachable cfg s.cluster ∧
      ∀ i, (s.cluster.nodes i).lastApplied ≤ (s.consumers i).applied.length) ?_ ?_ hup hx).2
    · exact ⟨Relation.ReflTransGen.refl, fun _ => Nat.le_refl _⟩
    · rintro _ s₁ ev s₂ _ ⟨hw, h⟩ hP hs
      rcases step_cases hs with ⟨e, w, rfl, hact, rfl⟩ | ⟨i, e, rest, hhand, hbuf, rfl⟩ |
        ⟨i, e, hhand, rfl⟩
      · exact ⟨hw.tail ⟨e, hact⟩, fun i => applied_act hw hact hP (h i)⟩
      · exact ⟨hw, applied_setConsumer h (List.prefix_refl _)⟩
      · exact ⟨hw, applied_setConsumer h (List.prefix_append _ _)⟩
  exact ⟨(follows_reachable (Execution.run_of_exec hx)).2 i, happlied i⟩

/--
**Read your own acknowledged write.** In a run in which the consumer has dealt with
everything that was sent to it whenever the apply loop sets `lastApplied`: from the
moment a call of `SubmitCommand` has returned success with an index, the consumer of
that node has dealt with all entries of the node's log up to that index, in order, and
the store is what their commands make of an empty one.
-/
theorem acked_in_store {evs : List ServerEvent} (hx : (Server.init cfg).exec J cfg evs = some s)
    (hup : Execution.Always (Server.step J cfg) (fun s ev _ => CaughtUp s ev) (Server.init cfg) evs)
    {k : Nat} {call : Submit} (hcall : s.cluster.Acked k call) :
    (s.cluster.nodes call.node).log.body.take call.index <+: (s.consumers call.node).applied ∧
    (s.consumers call.node).applied <+: (s.cluster.nodes call.node).log.body ∧
    (s.consumers call.node).store =
      (s.consumers call.node).applied.foldl (Consumer.applyEntry J) KVStore.newKVStore := by
  have hw := (follows_reachable (Execution.run_of_exec hx)).1
  have h := fed_run hx hup call.node
  obtain ⟨w₀, hw₀, hrun, _, hdone⟩ := acked_moment hw hcall
  have hindex : call.index ≤ (s.consumers call.node).applied.length :=
    (pollSubmit_done hdone).2.2.trans ((lastApplied_mono hw₀ hrun call.node).trans h.applied)
  obtain ⟨m, hsent, _, _⟩ := sent_take hw call.node
  have happlied : (s.consumers call.node).applied <+: (s.cluster.nodes call.node).log.body :=
    ((List.prefix_append _ _).trans h.received).trans (hsent ▸ List.take_prefix m _)
  refine ⟨?_, happlied, h.store⟩
  obtain ⟨rest, hrest⟩ := happlied
  rw [← hrest, List.take_append_of_le_length hindex]
  exact List.take_prefix _ _

/-- The command that sets `x` to `1`. -/
def putX : Raft.Command := serializePut plainCommands (bytesOf "x") (bytesOf "1")

/-- `b` commits the command, and its apply loop sends it. -/
def sentEvents : List ServerEvent :=
  [.event (.startElection "b"), .event (.requestVote 0), .event (.voteReply 0),
    .event (.submitCommand "b" putX), .event (.replicateLog "b" "c"), .event (.appendEntries 0),
    .event (.appendReply 0), .event (.collectApply "b"), .event (.sendApply "b")]

/-- The consumer is fast: the call returns after the store has the value. -/
theorem acked_in_store_abc : ∃ s,
    (Server.init volatileABC).exec plainCommands volatileABC (sentEvents ++
      [.receive "b", .apply "b", .event (.finishApply "b"), .event (.pollSubmit 0)]) = some s ∧
    s.cluster.Acked 0 ⟨"b", putX, 1, 1⟩ ∧
    (s.cluster.nodes "b").log.body.take 1 <+: (s.consumers "b").applied ∧
    (s.consumers "b").store.get (bytesOf "x") = some (bytesOf "1") := by
  obtain ⟨s, hx, hacked, hget⟩ : ∃ s ∈ (Server.init volatileABC).exec plainCommands volatileABC
      (sentEvents ++
        [.receive "b", .apply "b", .event (.finishApply "b"), .event (.pollSubmit 0)]),
      (s.cluster.submits[0]? = some ⟨"b", putX, 1, 1⟩ ∧
        (0, Outcome.success) ∈ s.cluster.returned) ∧
      (s.consumers "b").store.get (bytesOf "x") = some (bytesOf "1") := by
    decide +kernel
  exact ⟨s, hx, hacked, (acked_in_store hx (by decide +kernel) hacked).1, hget⟩

/-- The consumer is slow: the call has returned, and the store does not have the value. -/
theorem acked_before_store_abc : ∃ s,
    (Server.init volatileABC).exec plainCommands volatileABC (sentEvents ++
      [.event (.finishApply "b"), .event (.pollSubmit 0)]) = some s ∧
    s.cluster.Acked 0 ⟨"b", putX, 1, 1⟩ ∧ (s.consumers "b").applied = [] ∧
    (s.cluster.nodes "b").log.body = [⟨1, 1, putX⟩] ∧
    (s.consumers "b").store.get (bytesOf "x") = none := by
  obtain ⟨s, hx, hacked, h⟩ : ∃ s ∈ (Server.init volatileABC).exec plainCommands volatileABC
      (sentEvents ++ [.event (.finishApply "b"), .event (.pollSubmit 0)]),
      (s.cluster.submits[0]? = some ⟨"b", putX, 1, 1⟩ ∧
        (0, Outcome.success) ∈ s.cluster.returned) ∧ (s.consumers "b").applied = [] ∧
      (s.cluster.nodes "b").log.body = [⟨1, 1, putX⟩] ∧
      (s.consumers "b").store.get (bytesOf "x") = none := by
    decide +kernel
  exact ⟨s, hx, hacked, h⟩

end GammaFlow.Kv
