import GammaFlow.Kv.Answers

/-!
# How old an answer may be

A read is answered from the store of the node, and the store follows the log at a distance:
entries wait in the channel, and one may be in the hands of the consumer. The distance is
bounded by the capacity of the channel (`lastApplied_le`). So a node that reports itself ready
is not far behind (`ready_lag`), a read that comes after a write at the same node misses at
most the last entries before it (`read_after_write`), and reads at one node never go back in
the history (`reads_forward`).
-/

namespace GammaFlow.Kv

open GammaFlow.Raft
open GammaFlow.Storage (Journal Bytes)
open GammaFlow.Utf8 (bytesOf)

variable {ω : Type} [Journal ω] {A : Setup} {cfg : Config ω} {a a' : Api ω}

/-! ## Readiness -/

section Readiness

variable {J : CommandJson} {s : Server ω}

/-- A store lags behind `lastApplied` by what the channel holds and the entry in hand. -/
theorem lastApplied_le (hs : Server.Reachable J cfg s) (i : NodeID) :
    (s.cluster.nodes i).lastApplied ≤ (s.consumers i).applied.length + applyChCap + 1 := by
  obtain ⟨hw, hf⟩ := follows_reachable hs
  have hsent : (s.cluster.nodes i).lastApplied ≤ (s.cluster.applyCh i).length := by
    obtain ⟨k, hk, hle, hcommit⟩ := sent_take hw i
    have hlen := commitIndex_le hw i
    rw [hk, List.length_take]
    omega
  have hroom := (hf i).room
  have hhand : (s.consumers i).received.length ≤ (s.consumers i).applied.length + 1 := by
    unfold Consumer.received
    rw [List.length_append]
    cases (s.consumers i).inHand with
    | none => simp
    | some e => simp
  omega

omit [Journal ω] in
theorem handleReadyz_cases (n : Node ω) :
    (n.commitIndex ≤ n.lastApplied + 10 ∧ (handleReadyz n).status = 200) ∨
    (n.lastApplied + 10 < n.commitIndex ∧ (handleReadyz n).status = 503) := by
  unfold handleReadyz status
  dsimp only
  split
  · exact Or.inr ⟨by omega, rfl⟩
  · exact Or.inl ⟨by omega, rfl⟩

/--
**How far behind a ready node can be.** In every reachable state of the servers, a node that
answers `/readyz` with `200` has a store that holds what the first `p` entries of its log make
of an empty one, where `p` is at most its commit index and falls short of it by no more than
`267` entries: the `10` that are allowed for, the `256` that fit into the channel, and one.
-/
theorem ready_lag (hs : Server.Reachable J cfg s) {i : NodeID}
    (hready : (handleReadyz (s.cluster.nodes i)).status = 200) :
    ∃ p, (s.consumers i).store = ((s.cluster.nodes i).log.body.take p).foldl
        (Consumer.applyEntry J) KVStore.newKVStore ∧
      p ≤ (s.cluster.nodes i).commitIndex ∧ (s.cluster.nodes i).commitIndex ≤ p + 267 := by
  obtain ⟨hw, hf⟩ := follows_reachable hs
  obtain ⟨k, hk, _, hcommit⟩ := sent_take hw i
  have hlag := lastApplied_le hs i
  have hcap : applyChCap = 256 := rfl
  have hpart : (s.consumers i).applied <+: (s.cluster.nodes i).log.body.take k := by
    rw [← hk]; exact (List.prefix_append _ _).trans (hf i).received
  have hlen := hpart.length_le
  rw [List.length_take] at hlen
  refine ⟨(s.consumers i).applied.length, ?_, by omega, ?_⟩
  · rw [(hf i).store, ← List.prefix_iff_eq_take.mp (hpart.trans (List.take_prefix _ _))]
  · rcases handleReadyz_cases (s.cluster.nodes i) with ⟨hle, _⟩ | ⟨_, hst⟩
    · omega
    · omega

/-- Node `b` is ready with an entry that its store does not have. -/
theorem ready_lag_abc : ∃ s, Server.Reachable plainCommands volatileABC s ∧
    (s.consumers "b").applied = [] ∧ (s.cluster.nodes "b").commitIndex = 1 ∧
    ∃ p, p ≤ 1 ∧ (s.consumers "b").store = ((s.cluster.nodes "b").log.body.take p).foldl
      (Consumer.applyEntry plainCommands) KVStore.newKVStore := by
  obtain ⟨s, hx, happlied, hcommit, hready⟩ :
      ∃ s ∈ (Server.init volatileABC).exec plainCommands volatileABC sentEvents,
        (s.consumers "b").applied = [] ∧ (s.cluster.nodes "b").commitIndex = 1 ∧
        (handleReadyz (s.cluster.nodes "b")).status = 200 := by
    decide +kernel
  have hs : Server.Reachable plainCommands volatileABC s := Execution.run_of_exec hx
  obtain ⟨p, hstore, hp, _⟩ := ready_lag hs hready
  exact ⟨s, hs, happlied, hcommit, p, by omega, hstore⟩

end Readiness

/-! ## Reads -/

theorem applied_mono {J : CommandJson} {s s' : Server ω} (hr : Server.Run J cfg s s')
    (i : NodeID) : (s.consumers i).applied <+: (s'.consumers i).applied := by
  refine Execution.Run.invariant hr List.prefix_rfl ?_
  intro s₁ ev s₂ _ ih hs
  refine ih.trans ?_
  rcases step_cases hs with ⟨e, w, rfl, _, rfl⟩ | ⟨j, e, rest, _, _, rfl⟩ | ⟨j, e, _, rfl⟩
  · exact List.prefix_rfl
  · by_cases hij : i = j
    · rw [hij, setConsumer_self]
    · rw [setConsumer_ne s₁ hij]
  · by_cases hij : i = j
    · rw [hij, setConsumer_self]; exact List.prefix_append _ _
    · rw [setConsumer_ne s₁ hij]

omit [Journal ω] in
/-- A read that is answered with `200` or `404` has just looked into the store. -/
theorem looked_of_moves {h h' : Handler} (hok : HandlerOK A cfg a h)
    (hm : Moves A cfg a a'.server h h') {r : Response} (hph : h'.phase = .answered r)
    (hget : h.request.method = .get) (hst : r.status = 200 ∨ r.status = 404) :
    ∃ key, kvKey h.request.path = some key ∧ a'.server = a.server ∧
      r = .looked key ((a.server.consumers h.request.node).store.get key) := by
  have hwrite : ∀ key, h.request.write A key = none := by
    intro key
    unfold Request.write
    rw [hget]
  cases hm with
  | checked _ =>
      dsimp only at hph
      unfold handleKV at hph
      split at hph
      · injection hph with hph; subst hph; exact absurd hst (by decide)
      · rw [if_neg (by rw [hget]; decide)] at hph
        split at hph
        · exact absurd hph (by simp)
        · exact absurd hph (by simp)
  | looked key hlead _ hsame =>
      injection hph with hph
      exact ⟨key, (hok.leading key hlead).2.1, hsame, hph.symm⟩
  | invalid key r' _ hwr => rw [hwrite key] at hwr; exact absurd hwr (by simp)
  | notLeader _ => exact absurd hph (by simp)
  | unlogged key wr _ hwr => rw [hwrite key] at hwr; exact absurd hwr (by simp)
  | appended _ _ _ _ _ _ _ _ => exact absurd hph (by simp)
  | done wr k c _ hwr _ _ =>
      obtain ⟨key, _, hok⟩ := hok.write wr hwr
      rw [hwrite key] at hok
      exact absurd hok (by simp)
  | expired _ _ => injection hph with hph; subst hph; exact absurd hst (by decide)
  | redirected _ =>
      injection hph with hph
      subst hph
      rcases status_redirected h.request.path ((a.node h.request.node).redirectToLeader
        (A.peerHTTPAddrs h.request.node)) with h' | h' <;> omega

/--
A read that arrives in a run and is answered in it shows the history as far as the store of
the node had come at some moment in between.
-/
theorem looked_between (ha : Api.Reachable A cfg a) (hr : Api.Run A cfg a a') :
    ∀ (k : Nat) (h : Handler) (r : Response), a.handlers.length ≤ k → a'.handlers[k]? = some h →
      h.request.method = .get → h.phase = .answered r → r.status = 200 ∨ r.status = 404 →
      ∃ key p, kvKey h.request.path = some key ∧
        (a.server.consumers h.request.node).applied.length ≤ p ∧
        p ≤ (a'.server.consumers h.request.node).applied.length ∧
        r = .looked key (a'.after A cfg p key) := by
  refine Execution.Run.invariant hr ?_ ?_
  · intro k h r hle hk
    exact absurd (List.getElem?_eq_some_iff.mp hk).1 (Nat.not_lt.mpr hle)
  · intro a₁ ev a₂ hr₁ ih hstep k h r hle hk hget hph hst
    have hsteps := steps_of_step hstep
    obtain ⟨hs₁, hok⟩ := handlerOK_reachable (ha.trans hr₁)
    rcases hsteps.handler hk with hold | ⟨_, _, rfl⟩ | ⟨h₀, hold, hm, _⟩
    · obtain ⟨key, p, hkey, hlo, hhi, rfl⟩ := ih k h r hle hold hget hph hst
      have hlen := (get_store hs₁ h.request.node key).1
      refine ⟨key, p, hkey, hlo,
        Nat.le_trans hhi (applied_mono hsteps.run h.request.node).length_le, ?_⟩
      rw [after_mono hs₁ hsteps.run (Nat.le_trans hhi hlen)]
    · exact absurd hph (by simp [Handler.new])
    · have hreq := request_of_moves hm
      rw [hreq] at hget ⊢
      obtain ⟨key, hkey, hsame, rfl⟩ := looked_of_moves (hok k h₀ hold) hm hph hget hst
      obtain ⟨hlen, hstore⟩ := get_store hs₁ h₀.request.node key
      refine ⟨key, _, hkey, (applied_mono (Api.Run.server hr₁) h₀.request.node).length_le, ?_, ?_⟩
      · rw [hsame]
      · rw [hstore, after_mono hs₁ hsteps.run hlen]

theorem looked_inj {key : Bytes} {x y : Option Bytes}
    (h : Response.looked key x = Response.looked key y) : x = y := by
  cases x with
  | none =>
      cases y with
      | none => rfl
      | some v => exact absurd (congrArg Response.status h) (by simp [Response.looked, Response.error])
  | some u =>
      cases y with
      | none => exact absurd (congrArg Response.status h) (by simp [Response.looked, Response.error])
      | some v =>
          have hfields := congrArg Response.fields h
          simp only [Response.looked, List.cons.injEq, Prod.mk.injEq, Field.text.injEq, true_and,
            and_true] at hfields
          rw [hfields]

/-- A `GET` at `b`. -/
def getRequest : Request := ⟨"b", .get, kvPath (bytesOf "x"), none⟩

/-- The answer to it. -/
def getDone (value : Option Bytes) : Handler :=
  ⟨getRequest, .answered (.looked (bytesOf "x") value), none, none⟩

/--
**Reads at one node never go back.** Of two reads at the same node, the second of which
arrives after the first has been answered, both are answered from first parts of the committed
history, and the second from one that is at least as long.
-/
theorem reads_forward (ha : Api.Reachable A cfg a) (hr : Api.Run A cfg a a') {k k' : Nat}
    {h h' : Handler} {r r' : Response} (hk : a.handlers[k]? = some h)
    (hget : h.request.method = .get) (hph : h.phase = .answered r)
    (hst : r.status = 200 ∨ r.status = 404) (hlater : a.handlers.length ≤ k')
    (hk' : a'.handlers[k']? = some h') (hget' : h'.request.method = .get)
    (hnode : h'.request.node = h.request.node) (hph' : h'.phase = .answered r')
    (hst' : r'.status = 200 ∨ r'.status = 404) :
    ∃ key key' p p', kvKey h.request.path = some key ∧ kvKey h'.request.path = some key' ∧
      p ≤ p' ∧ p' ≤ (a'.server.cluster.history cfg).length ∧
      r = .looked key (a'.after A cfg p key) ∧ r' = .looked key' (a'.after A cfg p' key') := by
  obtain ⟨hs, _⟩ := handlerOK_reachable ha
  obtain ⟨hs', _⟩ := handlerOK_reachable (ha.trans hr)
  obtain ⟨key, p, hkey, _, hp, rfl⟩ :=
    looked_between Relation.ReflTransGen.refl ha k h r (Nat.zero_le _) hk hget hph hst
  obtain ⟨key', p', hkey', hp', hle, rfl⟩ :=
    looked_between ha hr k' h' r' hlater hk' hget' hph' hst'
  have hlen := (get_store (A := A) hs h.request.node key).1
  refine ⟨key, key', p, p', hkey, hkey', ?_, Nat.le_trans hle (get_store hs' _ key').1, ?_, rfl⟩
  · rw [hnode] at hp'
    exact Nat.le_trans hp hp'
  · rw [after_mono hs (Api.Run.server hr) (Nat.le_trans hp hlen)]

/-- Two reads after a write, and the consumer of the node comes in between. -/
def readEvents : List ApiEvent × List ApiEvent :=
  (putEvents ++ [.arrive getRequest, .handle 1, .handle 1],
    [.background (.receive "b"), .background (.apply "b"), .arrive getRequest, .handle 2, .handle 2])

theorem reads_forward_abc : ∃ a a' : Api OneFile, Api.Run plainSetup volatileABC a a' ∧
    a.handlers[1]? = some (getDone none) ∧ a'.handlers[2]? = some (getDone (some (bytesOf "1"))) ∧
    ∃ p p', p ≤ p' ∧ a'.after plainSetup volatileABC p (bytesOf "x") = none ∧
      a'.after plainSetup volatileABC p' (bytesOf "x") = some (bytesOf "1") := by
  obtain ⟨a, hx, hk, hlen, a', hx', hk'⟩ : ∃ a ∈ Execution.exec (Api.step plainSetup volatileABC)
      (Api.init volatileABC) readEvents.1, a.handlers[1]? = some (getDone none) ∧
      a.handlers.length ≤ 2 ∧
      ∃ a' ∈ Execution.exec (Api.step plainSetup volatileABC) a readEvents.2,
        a'.handlers[2]? = some (getDone (some (bytesOf "1"))) := by
    decide +kernel
  have ha : Api.Reachable plainSetup volatileABC a := Execution.run_of_exec hx
  have hr : Api.Run plainSetup volatileABC a a' := Execution.run_of_exec hx'
  obtain ⟨key, key', p, p', hkey, hkey', hle, _, hr₁, hr₂⟩ := reads_forward ha hr hk rfl rfl
    (Or.inr rfl) hlen hk' rfl rfl rfl (Or.inl rfl)
  have hx : kvKey getRequest.path = some (bytesOf "x") := by decide +kernel
  obtain rfl := Option.some.inj (hx.symm.trans hkey)
  obtain rfl := Option.some.inj (hx.symm.trans hkey')
  exact ⟨a, a', hr, hk, hk', p, p', hle, (looked_inj hr₁).symm, (looked_inj hr₂).symm⟩

/--
**A read that comes after a write at the same node misses little.** If a write has been
answered `200` with an index, a read at that node that arrives later is answered from a first
part of the history that ends at most `257` entries before the index.
-/
theorem read_after_write (ha : Api.Reachable A cfg a) (hr : Api.Run A cfg a a') {k k' : Nat}
    {h h' : Handler} {r r' : Response} {wr : Write} (hk : a.handlers[k]? = some h)
    (hwr : h.write = some wr) (hph : h.phase = .answered r) (hst : r.status = 200)
    (hlater : a.handlers.length ≤ k') (hk' : a'.handlers[k']? = some h')
    (hget : h'.request.method = .get) (hnode : h'.request.node = h.request.node)
    (hph' : h'.phase = .answered r') (hst' : r'.status = 200 ∨ r'.status = 404) :
    ∃ key index term p, r = wr.done index term ∧ kvKey h'.request.path = some key ∧
      index ≤ p + 257 ∧ p ≤ (a'.server.cluster.history cfg).length ∧
      r' = .looked key (a'.after A cfg p key) := by
  obtain ⟨hs, hok⟩ := handlerOK_reachable ha
  obtain ⟨hs', _⟩ := handlerOK_reachable (ha.trans hr)
  have hw := (follows_reachable hs).1
  obtain ⟨j, c, hj, hacked, rfl⟩ := acked_of_status ha hk hph hwr hst
  obtain ⟨key, p, hkey, hp, hle, rfl⟩ := looked_between ha hr k' h' r' hlater hk' hget hph' hst'
  have hcall : c.node = h.request.node := by
    obtain ⟨_, c', _, hc', hnode, _⟩ := (hok k h hk).call j hj
    rw [Option.some.inj (hacked.1.symm.trans hc')]
    exact hnode
  -- the call returned because its entry had been counted as applied
  have hindex : c.index ≤ (a.server.cluster.nodes c.node).lastApplied := by
    obtain ⟨w₀, hw₀, hrun, _, hdone⟩ := acked_moment hw hacked
    exact Nat.le_trans (pollSubmit_done hdone).2.2 (lastApplied_mono hw₀ hrun c.node)
  have hlag := lastApplied_le hs c.node
  have hcap : applyChCap = 256 := rfl
  rw [hnode, ← hcall] at hp
  exact ⟨key, c.index, c.term, p, rfl, hkey, by omega, Nat.le_trans hle (get_store hs' _ key).1, rfl⟩

theorem read_after_write_abc : ∃ a a' : Api OneFile, Api.Run plainSetup volatileABC a a' ∧
    a.handlers[0]? = some putDone ∧ a'.handlers[1]? = some (getDone none) ∧
    ∃ index p, index ≤ p + 257 ∧ a'.after plainSetup volatileABC p (bytesOf "x") = none := by
  obtain ⟨a, hx, hk, hlen, a', hx', hk'⟩ : ∃ a ∈ Execution.exec (Api.step plainSetup volatileABC)
      (Api.init volatileABC) putEvents, a.handlers[0]? = some putDone ∧ a.handlers.length ≤ 1 ∧
      ∃ a' ∈ Execution.exec (Api.step plainSetup volatileABC) a
        [.arrive getRequest, .handle 1, .handle 1], a'.handlers[1]? = some (getDone none) := by
    decide +kernel
  have ha : Api.Reachable plainSetup volatileABC a := Execution.run_of_exec hx
  have hr : Api.Run plainSetup volatileABC a a' := Execution.run_of_exec hx'
  obtain ⟨key, index, _, p, _, hkey, hle, _, hr'⟩ :=
    read_after_write ha hr hk rfl rfl rfl hlen hk' rfl rfl rfl (Or.inr rfl)
  have hx : kvKey getRequest.path = some (bytesOf "x") := by decide +kernel
  obtain rfl := Option.some.inj (hx.symm.trans hkey)
  exact ⟨a, a', hr, hk, hk', index, p, hle, (looked_inj hr').symm⟩

end GammaFlow.Kv
