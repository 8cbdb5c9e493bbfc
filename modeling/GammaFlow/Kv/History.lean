import GammaFlow.Kv.Server
import GammaFlow.Raft.History

/-!
# The servers as one state machine

Behind all that happens between the servers there is one machine: the history that the
cluster has committed, and for each server how many entries of it have reached its store
(`Shows`). Every run of the servers is a run of that machine (`servers_refine`).

Nothing is assumed of the consumers here. A consumer may lag behind what its node has
committed as far as the channel between them allows; it never skips an entry, repeats
one, or sees one that another server sees differently.
-/

namespace GammaFlow.Kv

open GammaFlow.Raft
open GammaFlow.Storage (Journal Bytes)
open GammaFlow.Utf8 (bytesOf)

variable {ω : Type} [Journal ω] {J : CommandJson} {cfg : Config ω} {s s' : Server ω}

/-- The history that the cluster has committed and how far each store has come in it. -/
structure Shows (J : CommandJson) (cfg : Config ω) (s : Server ω)
    (m : ReplicatedMachine.State NodeID LogEntry) : Prop where
  history : m.history = s.cluster.history cfg
  position : ∀ i, m.position i = (s.consumers i).applied.length
  store : ∀ i, (s.consumers i).store =
    m.replica (Consumer.applyEntry J) KVStore.newKVStore i

/-- What a consumer has dealt with is a first part of the history. -/
theorem applied_part (hs : Server.Reachable J cfg s) (i : NodeID) :
    (s.consumers i).applied <+: s.cluster.history cfg := by
  obtain ⟨hw, h⟩ := follows_reachable hs
  obtain ⟨k, hsent, _, hk⟩ := sent_take hw i
  have hrec : (s.consumers i).applied <+: s.cluster.applyCh i :=
    (List.prefix_append _ _).trans (h i).received
  rw [hsent, ← history_take hw hk] at hrec
  exact hrec.trans (List.take_prefix _ _)

/-- The machine that a reachable state shows. -/
def shown (cfg : Config ω) (s : Server ω)
    (h : ∀ i, (s.consumers i).applied.length ≤ (s.cluster.history cfg).length) :
    ReplicatedMachine.State NodeID LogEntry :=
  ⟨s.cluster.history cfg, fun i => (s.consumers i).applied.length, h⟩

theorem shows_shown (hs : Server.Reachable J cfg s) :
    Shows J cfg s (shown cfg s fun i => (applied_part hs i).length_le) := by
  refine ⟨rfl, fun _ => rfl, fun i => ?_⟩
  rw [((follows_reachable hs).2 i).store]
  unfold ReplicatedMachine.State.replica
  exact congrArg (List.foldl _ _) (List.prefix_iff_eq_take.mp (applied_part hs i))

/-- A step of the servers commits, lets one replica execute a command, or shows nothing. -/
theorem shows_step {m : ReplicatedMachine.State NodeID LogEntry} (hs : Server.Reachable J cfg s)
    (h : Shows J cfg s m) {ev : ServerEvent} (hstep : s.step J cfg ev = some s') :
    ∃ m', Shows J cfg s' m' ∧ ReplicatedMachine.Run m m' := by
  have hs' : Server.Reachable J cfg s' := hs.tail ⟨ev, hstep⟩
  have hw := (follows_reachable hs).1
  refine ⟨_, shows_shown hs', ?_⟩
  rcases step_cases hstep with ⟨e, w, rfl, hact, rfl⟩ | ⟨i, e, rest, hhand, hbuf, rfl⟩ |
    ⟨i, e, hhand, rfl⟩
  · obtain ⟨more, hmore⟩ := history_mono hw (Relation.ReflTransGen.single ⟨e, hact⟩)
    refine ReplicatedMachine.run_commit more ?_ (funext fun i => (h.position i).symm)
    rw [h.history]
    exact hmore.symm
  · refine ReplicatedMachine.run_commit [] (by rw [h.history, List.append_nil]; rfl) ?_
    funext j
    rw [h.position j]
    show ((s.setConsumer i _).consumers j).applied.length = _
    by_cases hij : j = i
    · rw [hij, setConsumer_self]
    · rw [setConsumer_ne s hij]
  · have hpos : ∀ j, ((s.setConsumer i ⟨none, (s.consumers i).applied ++ [e],
        Consumer.applyEntry J (s.consumers i).store e⟩).consumers j).applied.length =
        Function.update m.position i (m.position i + 1) j := by
      intro j
      by_cases hij : j = i
      · rw [hij, setConsumer_self, Function.update_self, h.position i]
        exact List.length_append
      · rw [setConsumer_ne s hij, Function.update_of_ne hij, h.position j]
    refine ReplicatedMachine.run_execute (i := i) ?_ h.history.symm (funext hpos)
    -- the entry in hand is a committed one
    have hle := (applied_part hs' i).length_le
    rw [hpos i, Function.update_self] at hle
    rw [h.history]
    exact hle

/--
**The servers are one replicated state machine.** Every reachable state of the servers
shows one state of the machine: the committed history, and stores that hold what a first
part of it makes of an empty store. Whatever the servers do from there is a run of the
machine: the history grows at its end, and stores move on in it one entry at a time.
-/
theorem servers_refine (hs : Server.Reachable J cfg s) : ∃ m, Shows J cfg s m ∧
    ReplicatedMachine.Run ReplicatedMachine.State.init m ∧
    ∀ s', Server.Run J cfg s s' → ∃ m', Shows J cfg s' m' ∧ ReplicatedMachine.Run m m' := by
  have hrun : ∀ {s s' : Server ω} {m}, Server.Reachable J cfg s → Shows J cfg s m →
      Server.Run J cfg s s' → ∃ m', Shows J cfg s' m' ∧ ReplicatedMachine.Run m m' := by
    intro s s' m hs h hr
    refine Execution.Run.invariant hr ⟨m, h, Relation.ReflTransGen.refl⟩ ?_
    rintro s₁ ev s₂ hr₁ ⟨m₁, h₁, hm₁⟩ hstep
    obtain ⟨m₂, h₂, hm₂⟩ := shows_step (hs.trans hr₁) h₁ hstep
    exact ⟨m₂, h₂, hm₁.trans hm₂⟩
  have hinit : Shows J cfg (Server.init cfg) ReplicatedMachine.State.init := by
    have hzero : (Server.init cfg).cluster.history cfg = [] := by
      rcases ReplicatedMachine.longest_cases (cfg.ids.map (Cluster.init cfg).decided) with h | h
      · exact h
      · obtain ⟨i, _, hi⟩ := List.mem_map.mp h
        exact hi.symm
    exact ⟨hzero.symm, fun _ => rfl, fun _ => rfl⟩
  obtain ⟨m, hm, hreach⟩ := hrun Relation.ReflTransGen.refl hinit hs
  exact ⟨m, hm, hreach, fun s' hr => hrun hs hm hr⟩

/-- The consumers of `b` and `c` have come equally far, and their stores hold the same. -/
theorem servers_refine_abc : ∃ s, Server.Reachable plainCommands volatileABC s ∧
    (s.consumers "b").store.get (bytesOf "x") = some (bytesOf "1") ∧
    (s.consumers "c").store = (s.consumers "b").store := by
  obtain ⟨s, hx, hget, hlen⟩ : ∃ s ∈ (Server.init volatileABC).exec plainCommands volatileABC
      (sentEvents ++ [.receive "b", .apply "b", .event (.sendHeartbeats "b"),
        .event (.readHeartbeat 1), .event (.appendEntries 1), .event (.collectApply "c"),
        .event (.sendApply "c"), .receive "c", .apply "c"]),
      (s.consumers "b").store.get (bytesOf "x") = some (bytesOf "1") ∧
      (s.consumers "c").applied.length = (s.consumers "b").applied.length := by
    decide +kernel
  have hs : Server.Reachable plainCommands volatileABC s := Execution.run_of_exec hx
  obtain ⟨m, hm, _⟩ := servers_refine hs
  refine ⟨s, hs, hget, ?_⟩
  rw [hm.store, hm.store]
  refine ReplicatedMachine.replica_agree Relation.ReflTransGen.refl ?_
  rw [hm.position, hm.position, hlen]

end GammaFlow.Kv
