import GammaFlow.Kv.Api
import GammaFlow.Raft.Provenance

/-!
# What the answers say

What is said of an answer can be said of the log: a `200` to a write names an entry of the
committed history, a `200` or a `404` to a read is what some first part of the history leaves
under the key, and a request that is refused has appended nothing (`answers_mean`). Writes
that are answered `200` have each their own place in the history, in the order of real time
(`writes_in_order`), and nothing is in a log or a store that was not asked for
(`nothing_from_nowhere`).
-/

namespace GammaFlow.Kv

open GammaFlow.Raft
open GammaFlow.Storage (Journal Bytes)
open GammaFlow.Utf8 (bytesOf sanitize)

variable {ω : Type} [Journal ω] {A : Setup} {cfg : Config ω} {a a' : Api ω}

/-! ## What answers mean -/

/-- What a first part of the history leaves under a key. -/
def Api.after (A : Setup) (cfg : Config ω) (a : Api ω) (p : Nat) (key : Bytes) : Option Bytes :=
  (((a.server.cluster.history cfg).take p).foldl (Consumer.applyEntry A.json)
    KVStore.newKVStore).get key

/-- Why a request is answered the way it is. -/
inductive Answers (A : Setup) (cfg : Config ω) (a : Api ω) (h : Handler) : Response → Prop
  | refused (r : Response) : h.write = none → r.status = 400 ∨ r.status = 405 → Answers A cfg a h r
  | looked (key : Bytes) (p : Nat) : h.request.method = .get → h.write = none →
      kvKey h.request.path = some key → p ≤ (a.server.cluster.history cfg).length →
      Answers A cfg a h (.looked key (a.after A cfg p key))
  | acked (wr : Write) (k : Nat) (c : Submit) : h.write = some wr → h.call = some k →
      a.server.cluster.Acked k c → Answers A cfg a h (wr.done c.index c.term)
  | failed (r : Response) : h.write.isSome → r.status = 500 → Answers A cfg a h r
  | redirected (d : Redirection) : Answers A cfg a h (.redirected h.request.path d)

/-- What is known of a request, wherever its handler is. -/
structure HandlerOK (A : Setup) (cfg : Config ω) (a : Api ω) (h : Handler) : Prop where
  write : ∀ wr, h.write = some wr →
    ∃ key, kvKey h.request.path = some key ∧ h.request.write A key = some (.ok wr)
  call : ∀ k, h.call = some k → ∃ wr c, h.write = some wr ∧
    a.server.cluster.submits[k]? = some c ∧ c.node = h.request.node ∧
      c.command = wr.command A.json
  arrived : h.phase = .arrived → h.write = none
  leading : ∀ key, h.phase = .leading key → h.write = none ∧
    kvKey h.request.path = some key ∧ h.request.method ≠ .other
  answered : ∀ r, h.phase = .answered r → Answers A cfg a h r

section Mono

variable {J : CommandJson} {s s' : Server ω}

theorem cluster_run (hr : Server.Run J cfg s s') : Cluster.Run cfg s.cluster s'.cluster := by
  refine Execution.Run.invariant hr Relation.ReflTransGen.refl ?_
  intro s₁ ev s₂ _ ih hs
  rcases step_cases hs with ⟨e, w, rfl, hact, rfl⟩ | ⟨_, _, _, _, _, rfl⟩ | ⟨_, _, _, rfl⟩
  · exact ih.tail ⟨e, hact⟩
  · exact ih
  · exact ih

theorem submits_kept (hr : Server.Run J cfg s s') {k : Nat} {c : Submit}
    (h : s.cluster.submits[k]? = some c) : s'.cluster.submits[k]? = some c := by
  obtain ⟨rest, hrest⟩ := submits_mono (cluster_run hr)
  rw [← hrest, List.getElem?_append_left (List.getElem?_eq_some_iff.mp h).1]
  exact h

/-- What was returned stays returned. -/
theorem returned_mono {w w' : Cluster ω} (hr : Cluster.Run cfg w w') :
    w.returned <+: w'.returned := by
  refine Execution.Run.invariant hr List.prefix_rfl ?_
  intro w₁ ev w₂ _ ih hs
  refine ih.trans ?_
  cases acts_of_act hs with
  | pollDone _ _ _ _ _ => exact List.prefix_append _ _
  | pollFailed _ _ => exact List.prefix_append _ _
  | timeoutSubmit _ _ => exact List.prefix_append _ _
  | _ => exact List.prefix_rfl

theorem acked_kept (hr : Server.Run J cfg s s') {k : Nat} {c : Submit}
    (h : s.cluster.Acked k c) : s'.cluster.Acked k c :=
  ⟨submits_kept hr h.1, (returned_mono (cluster_run hr)).subset h.2⟩

end Mono

/-- What a first part of the history leaves stays what it leaves. -/
theorem after_mono (hs : Server.Reachable A.json cfg a.server)
    (hr : Server.Run A.json cfg a.server a'.server) {p : Nat}
    (hp : p ≤ (a.server.cluster.history cfg).length) (key : Bytes) :
    a'.after A cfg p key = a.after A cfg p key := by
  obtain ⟨rest, hrest⟩ := history_mono (follows_reachable hs).1 (cluster_run hr)
  unfold Api.after
  rw [← hrest, List.take_append_of_le_length hp]

theorem Answers.mono {h : Handler} {r : Response} (hans : Answers A cfg a h r)
    (hs : Server.Reachable A.json cfg a.server)
    (hr : Server.Run A.json cfg a.server a'.server) : Answers A cfg a' h r := by
  cases hans with
  | refused r hwr hst => exact .refused r hwr hst
  | looked key p hm hwr hkey hp =>
      rw [← after_mono hs hr hp]
      exact .looked key p hm hwr hkey (Nat.le_trans hp
        (history_mono (follows_reachable hs).1 (cluster_run hr)).length_le)
  | acked wr k c hwr hk hacked => exact .acked wr k c hwr hk (acked_kept hr hacked)
  | failed r hwr hst => exact .failed r hwr hst
  | redirected d => exact .redirected d

theorem HandlerOK.mono {h : Handler} (hok : HandlerOK A cfg a h)
    (hs : Server.Reachable A.json cfg a.server)
    (hr : Server.Run A.json cfg a.server a'.server) : HandlerOK A cfg a' h where
  write := hok.write
  call k hk := by
    obtain ⟨wr, c, hwr, hc, hrest⟩ := hok.call k hk
    exact ⟨wr, c, hwr, submits_kept hr hc, hrest⟩
  arrived := hok.arrived
  leading := hok.leading
  answered r hr' := (hok.answered r hr').mono hs hr

omit [Journal ω] in
/-- A handler that only changes its phase. -/
theorem HandlerOK.moved {h : Handler} {phase : Phase} (hok : HandlerOK A cfg a h)
    (harr : phase ≠ .arrived) (hlead : ∀ key, phase = .leading key → h.write = none ∧
      kvKey h.request.path = some key ∧ h.request.method ≠ .other)
    (hans : ∀ r, phase = .answered r → Answers A cfg a h r) :
    HandlerOK A cfg a { h with phase := phase } where
  write := hok.write
  call := hok.call
  arrived hph := absurd hph harr
  leading := hlead
  answered r hph := by
    cases hans r hph with
    | refused r hwr hst => exact .refused r hwr hst
    | looked key p hm hwr hkey hp => exact .looked key p hm hwr hkey hp
    | acked wr k c hwr hk hacked => exact .acked wr k c hwr hk hacked
    | failed r hwr hst => exact .failed r hwr hst
    | redirected d => exact .redirected d

theorem status_of_handlePut {key : Bytes} {body : Option Bytes} {r : Response}
    (h : handlePut A key body = .error r) : r.status = 400 := by
  unfold handlePut at h
  split at h
  · injection h with h; rw [← h]; rfl
  · split at h
    · injection h with h; rw [← h]; rfl
    · exact absurd h (by simp)

/-- Only a `PUT` is refused after the check, and only for its body. -/
theorem status_of_write {req : Request} {key : Bytes} {r : Response}
    (h : req.write A key = some (.error r)) : r.status = 400 := by
  unfold Request.write at h
  split at h
  · exact status_of_handlePut (Option.some.inj h)
  · exact absurd (Option.some.inj h) (by simp)
  · exact absurd h (by simp)
  · exact absurd h (by simp)

theorem get_of_write {req : Request} {key : Bytes} (h : req.write A key = none)
    (hm : req.method ≠ .other) : req.method = .get := by
  unfold Request.write at h
  split at h
  · exact absurd h (by simp)
  · exact absurd h (by simp)
  · assumption
  · rename_i hother; exact absurd hother hm

/-- A store holds what a first part of the history leaves. -/
theorem get_store (hs : Server.Reachable A.json cfg a.server) (i : NodeID) (key : Bytes) :
    (a.server.consumers i).applied.length ≤ (a.server.cluster.history cfg).length ∧
    (a.server.consumers i).store.get key =
      a.after A cfg (a.server.consumers i).applied.length key := by
  have hpart := applied_part hs i
  refine ⟨hpart.length_le, ?_⟩
  unfold Api.after
  rw [((follows_reachable hs).2 i).store, ← List.prefix_iff_eq_take.mp hpart]

omit [Journal ω] in
/-- What `handleKV` lets through. -/
theorem handlerOK_checked {h : Handler} (hok : HandlerOK A cfg a h) (hph : h.phase = .arrived)
    (n : Node ω) : HandlerOK A cfg a { h with phase := handleKV n h.request } := by
  have hwr := hok.arrived hph
  unfold handleKV
  split
  · exact hok.moved (by simp) (fun _ hk => absurd hk (by simp))
      (fun r hr => .refused r hwr (Or.inl (by injection hr with hr; rw [← hr]; rfl)))
  · rename_i key hkey
    split
    · exact hok.moved (by simp) (fun _ hk => absurd hk (by simp))
        (fun r hr => .refused r hwr (Or.inr (by injection hr with hr; rw [← hr]; rfl)))
    · rename_i hm
      split
      · refine hok.moved (by simp) ?_ (fun _ hr => absurd hr (by simp))
        intro key' hk
        injection hk with hk
        exact ⟨hwr, by rw [← hk]; exact hkey, hm⟩
      · exact hok.moved (by simp) (fun _ hk => absurd hk (by simp))
          (fun _ hr => absurd hr (by simp))

omit [Journal ω] in
/-- A handler that has just appended. -/
theorem handlerOK_appended {h : Handler} (hok : HandlerOK A cfg a h) {key : Bytes} {wr : Write}
    (hph : h.phase = .leading key) (hwr : h.request.write A key = some (.ok wr)) {phase : Phase}
    {call : Option Nat} (hcall : ∀ k, call = some k → ∃ c, a.server.cluster.submits[k]? = some c ∧
      c.node = h.request.node ∧ c.command = wr.command A.json)
    (harr : phase ≠ .arrived) (hlead : ∀ key, phase ≠ .leading key)
    (hans : ∀ r, phase = .answered r → r.status = 500) :
    HandlerOK A cfg a { h with phase := phase, write := some wr, call := call } where
  write wr' hwr' := by
    obtain rfl := Option.some.inj hwr'
    exact ⟨key, (hok.leading key hph).2.1, hwr⟩
  call k hk := by
    obtain ⟨c, hc⟩ := hcall k hk
    exact ⟨wr, c, rfl, hc⟩
  arrived h := absurd h harr
  leading key h := absurd h (hlead key)
  answered r hr := .failed r rfl (hans r hr)

/-- **Every section of a handler keeps to what is known of it.** -/
theorem handlerOK_moves {h h' : Handler} (hs : Server.Reachable A.json cfg a.server)
    (hr : Server.Run A.json cfg a.server a'.server) (hok : HandlerOK A cfg a h)
    (hm : Moves A cfg a a'.server h h') : HandlerOK A cfg a' h' := by
  have hok' := hok.mono hs hr
  cases hm with
  | checked hph => exact handlerOK_checked hok' hph _
  | looked key hph hwr hsame =>
      obtain ⟨hnone, hkey, hother⟩ := hok.leading key hph
      refine hok'.moved (by simp) (fun _ hk => absurd hk (by simp)) ?_
      intro r hr'
      injection hr' with hr'
      obtain ⟨hp, hget⟩ := get_store hs h.request.node key
      rw [← hr', hget, ← after_mono hs hr hp]
      exact .looked key _ (get_of_write hwr hother) hnone hkey (by rw [hsame]; exact hp)
  | invalid key r hph hwr =>
      refine hok'.moved (by simp) (fun _ hk => absurd hk (by simp)) ?_
      intro r' hr'
      injection hr' with hr'
      exact .refused r' (hok.leading key hph).1 (Or.inl (by rw [← hr']; exact status_of_write hwr))
  | notLeader _ =>
      exact hok'.moved (by simp) (fun _ hk => absurd hk (by simp)) (fun _ hr' => absurd hr' (by simp))
  | unlogged key wr hph hwr =>
      refine handlerOK_appended hok' hph hwr ?_ (by simp) (by simp) ?_
      · intro k hk
        obtain ⟨_, _, hsome, _⟩ := hok.call k hk
        rw [(hok.leading key hph).1] at hsome
        exact absurd hsome (by simp)
      · intro r hr'
        injection hr' with hr'
        rw [← hr']; rfl
  | appended key wr c hph hwr hnode hcommand hsub =>
      refine handlerOK_appended hok' hph hwr ?_ (by simp) (by simp) (fun _ hr' => absurd hr' (by simp))
      intro k hk
      obtain rfl := Option.some.inj hk
      exact ⟨c, by rw [hsub, List.getElem?_concat_length], hnode, hcommand⟩
  | done wr k c hph hwr hk hacked =>
      refine hok'.moved (by simp) (fun _ hk => absurd hk (by simp)) ?_
      intro r hr'
      injection hr' with hr'
      rw [← hr']
      exact .acked wr k c hwr hk hacked
  | expired hph hcall =>
      obtain ⟨k, hk⟩ := Option.isSome_iff_exists.mp hcall
      obtain ⟨wr, c, hwr, _⟩ := hok.call k hk
      refine hok'.moved (by simp) (fun _ hk => absurd hk (by simp)) ?_
      intro r hr'
      injection hr' with hr'
      exact .failed r (by rw [hwr]; rfl) (by rw [← hr']; rfl)
  | redirected hph =>
      refine hok'.moved (by simp) (fun _ hk => absurd hk (by simp)) ?_
      intro r hr'
      injection hr' with hr'
      rw [← hr']
      exact .redirected _

theorem handlerOK_reachable (ha : Api.Reachable A cfg a) :
    Server.Reachable A.json cfg a.server ∧
      ∀ (k : Nat) (h : Handler), a.handlers[k]? = some h → HandlerOK A cfg a h := by
  refine Execution.Run.invariant ha
    ⟨Relation.ReflTransGen.refl, fun k h hk => absurd hk (by simp [Api.init])⟩ ?_
  rintro a₁ ev a₂ _ ⟨hs, hok⟩ hstep
  have hsteps := steps_of_step hstep
  refine ⟨hs.trans hsteps.run, ?_⟩
  intro k h hk
  rcases hsteps.handler hk with hold | ⟨_, r, rfl⟩ | ⟨h₀, hold, hm, _⟩
  · exact (hok k h hold).mono hs hsteps.run
  · exact ⟨fun _ hwr => absurd hwr (by simp [Handler.new]),
      fun _ hc => absurd hc (by simp [Handler.new]), fun _ => rfl,
      fun _ hph => absurd hph (by simp [Handler.new]),
      fun _ hph => absurd hph (by simp [Handler.new])⟩
  · exact handlerOK_moves hs hsteps.run (hok k h₀ hold) hm

theorem status_redirected (path : Bytes) (d : Redirection) :
    (Response.redirected path d).status = 307 ∨ (Response.redirected path d).status = 503 := by
  unfold Response.redirected
  split
  · exact Or.inr rfl
  · exact Or.inr rfl
  · exact Or.inl rfl

/-- What `200` says about a write. -/
theorem acked_write (ha : Api.Reachable A cfg a) {k : Nat} {h : Handler}
    (hk : a.handlers[k]? = some h) {wr : Write} {j : Nat} {c : Submit} (hwr : h.write = some wr)
    (hj : h.call = some j) (hacked : a.server.cluster.Acked j c) :
    1 ≤ c.index ∧ (a.server.cluster.history cfg)[c.index - 1]? =
      some ⟨c.term, c.index, wr.command A.json⟩ := by
  obtain ⟨hs, hok⟩ := handlerOK_reachable ha
  obtain ⟨wr', c', hwr', hc', _, hcommand⟩ := (hok k h hk).call j hj
  obtain rfl := Option.some.inj (hacked.1.symm.trans hc')
  obtain rfl := Option.some.inj (hwr.symm.trans hwr')
  rw [← hcommand]
  exact hacked.in_history (follows_reachable hs).1

/-- Bodies are taken for values as they are. -/
def plainSetup : Setup where
  json := plainCommands
  bodyValue := some
  peerHTTPAddrs := fun _ _ => some "localhost:8081"
  walError := bytesOf "write record: no space left on device"

/-- A `PUT` at `b`. -/
def putRequest (key value : String) : Request :=
  ⟨"b", .put, kvPath (bytesOf key), some (bytesOf value)⟩

/-- `b` is elected, and a `PUT` of `x` is served from its arrival to its answer. -/
def putEvents : List ApiEvent :=
  [.background (.event (.startElection "b")), .background (.event (.requestVote 0)),
    .background (.event (.voteReply 0)), .arrive (putRequest "x" "1"), .handle 0, .handle 0,
    .background (.event (.replicateLog "b" "c")), .background (.event (.appendEntries 0)),
    .background (.event (.appendReply 0)), .background (.event (.collectApply "b")),
    .background (.event (.sendApply "b")), .background (.event (.finishApply "b")), .handle 0]

/-- The answer to it. -/
def putDone : Handler :=
  ⟨putRequest "x" "1", .answered ((Write.put (bytesOf "x") (bytesOf "1")).done 1 1),
    some (.put (bytesOf "x") (bytesOf "1")), some 0⟩

omit [Journal ω] in
/-- A handler keeps its call, or has just made one. -/
theorem call_of_moves {s' : Server ω} {h h' : Handler} (hm : Moves A cfg a s' h h') :
    h'.call = h.call ∨ h'.call = some a.server.cluster.submits.length := by
  cases hm with
  | appended _ _ _ _ _ _ _ _ => exact Or.inr rfl
  | _ => exact Or.inl rfl

theorem call_lt (ha : Api.Reachable A cfg a) {k j : Nat} {h : Handler}
    (hk : a.handlers[k]? = some h) (hj : h.call = some j) :
    j < a.server.cluster.submits.length := by
  obtain ⟨_, c, _, hc, _⟩ := ((handlerOK_reachable ha).2 k h hk).call j hj
  exact (List.getElem?_eq_some_iff.mp hc).1

/-- No two handlers wait for the same call. -/
theorem calls_distinct (ha : Api.Reachable A cfg a) : ∀ (k k' j : Nat) (h h' : Handler),
    a.handlers[k]? = some h → a.handlers[k']? = some h' → h.call = some j → h'.call = some j →
    k = k' := by
  refine Execution.Run.invariant ha (fun k k' j h h' hk => absurd hk (by simp [Api.init])) ?_
  intro a₁ ev a₂ ha₁ ih hstep k k' j h h' hk hk' hj hj'
  -- the handler that has moved has its old call, or one that nobody had
  have key : ∀ {k k' : Nat} {h₀ h h' : Handler}, a₁.handlers[k]? = some h₀ →
      Moves A cfg a₁ a₂.server h₀ h → h.call = some j → a₁.handlers[k']? = some h' →
      h'.call = some j → k = k' := by
    intro k k' h₀ h h' hk hm hj hk' hj'
    rcases call_of_moves hm with heq | heq
    · exact ih k k' j h₀ h' hk hk' (heq.symm.trans hj) hj'
    · have hlt := call_lt ha₁ hk' hj'
      rw [heq] at hj
      have := Option.some.inj hj
      omega
  have hsteps := steps_of_step hstep
  by_cases hkk : k = k'
  · exact hkk
  rcases hsteps.handler hk with hold | ⟨_, r, rfl⟩ | ⟨h₀, hold, hm, hothers⟩
  · rcases hsteps.handler hk' with hold' | ⟨_, r, rfl⟩ | ⟨h₀, hold', hm, _⟩
    · exact ih k k' j h h' hold hold' hj hj'
    · exact absurd hj' (by simp [Handler.new])
    · exact (key hold' hm hj' hold hj).symm
  · exact absurd hj (by simp [Handler.new])
  · rw [hothers k' (Ne.symm hkk)] at hk'
    exact key hold hm hj hk' hj'

theorem Api.Run.server (hr : Api.Run A cfg a a') :
    Server.Run A.json cfg a.server a'.server := by
  refine Execution.Run.invariant hr Relation.ReflTransGen.refl ?_
  intro a₁ ev a₂ _ ih hstep
  exact ih.trans (steps_of_step hstep).run

/-- The calls of requests that arrive later come later. -/
theorem call_later (hr : Api.Run A cfg a a') :
    ∀ (k j : Nat) (h : Handler), a.handlers.length ≤ k → a'.handlers[k]? = some h →
      h.call = some j → a.server.cluster.submits.length ≤ j := by
  refine Execution.Run.invariant hr ?_ ?_
  · intro k j h hle hk
    exact absurd (List.getElem?_eq_some_iff.mp hk).1 (Nat.not_lt.mpr hle)
  · intro a₁ ev a₂ hr₁ ih hstep k j h hle hk hj
    rcases (steps_of_step hstep).handler hk with hold | ⟨_, r, rfl⟩ | ⟨h₀, hold, hm, _⟩
    · exact ih k j h hle hold hj
    · exact absurd hj (by simp [Handler.new])
    · rcases call_of_moves hm with heq | heq
      · exact ih k j h₀ hle hold (heq.symm.trans hj)
      · rw [heq] at hj
        rw [← Option.some.inj hj]
        exact (submits_mono (cluster_run (Api.Run.server hr₁))).length_le

/-- An answer is final. -/
theorem answered_kept (hr : Api.Run A cfg a a') {k : Nat} {h : Handler} {r : Response}
    (hk : a.handlers[k]? = some h) (hph : h.phase = .answered r) : a'.handlers[k]? = some h := by
  refine Execution.Run.invariant hr hk ?_
  intro a₁ ev a₂ _ ih hstep
  rcases (steps_of_step hstep).handlers with heq | ⟨r, heq⟩ | ⟨j, h₀, h', hj, heq, hm⟩
  · rw [heq]; exact ih
  · rw [heq, List.getElem?_append_left (List.getElem?_eq_some_iff.mp ih).1]; exact ih
  · by_cases hjk : j = k
    · subst hjk
      obtain rfl := Option.some.inj (hj.symm.trans ih)
      exact absurd hph (not_answered_of_moves hm _)
    · rw [heq, List.getElem?_set_ne hjk]; exact ih

/-- The call behind a `200` to a write. -/
theorem acked_of_status (ha : Api.Reachable A cfg a) {k : Nat} {h : Handler} {r : Response}
    {wr : Write} (hk : a.handlers[k]? = some h) (hph : h.phase = .answered r)
    (hwr : h.write = some wr) (hst : r.status = 200) :
    ∃ j c, h.call = some j ∧ a.server.cluster.Acked j c ∧ r = wr.done c.index c.term := by
  obtain ⟨_, hok⟩ := handlerOK_reachable ha
  cases (hok k h hk).answered r hph with
  | refused r hnone _ => rw [hwr] at hnone; exact absurd hnone (by simp)
  | looked key p _ hnone _ _ => rw [hwr] at hnone; exact absurd hnone (by simp)
  | acked wr' j c hwr' hj hacked =>
      obtain rfl := Option.some.inj (hwr.symm.trans hwr')
      exact ⟨j, c, hj, hacked, rfl⟩
  | failed r _ hst' => omega
  | redirected d =>
      have := status_redirected h.request.path d
      omega

/--
**Writes that are answered `200` have each their own place in the history, in the order of
real time.** Of two writes that are answered `200`, the first at a moment of a run and the
second at that moment or a later one, each has its command at a place of its own in the
committed history, the first had it when it was answered, and if the second request arrived
after that, its place is behind the other.
-/
theorem writes_in_order (ha : Api.Reachable A cfg a) (hr : Api.Run A cfg a a') {k k' : Nat}
    {h h' : Handler} {r r' : Response} {wr wr' : Write} (hkk : k ≠ k')
    (hk : a.handlers[k]? = some h) (hph : h.phase = .answered r) (hwr : h.write = some wr)
    (hst : r.status = 200) (hk' : a'.handlers[k']? = some h') (hph' : h'.phase = .answered r')
    (hwr' : h'.write = some wr') (hst' : r'.status = 200) :
    ∃ p p' term term', p ≠ p' ∧ p < (a.server.cluster.history cfg).length ∧
      (a'.server.cluster.history cfg)[p]? = some ⟨term, p + 1, wr.command A.json⟩ ∧
      (a'.server.cluster.history cfg)[p']? = some ⟨term', p' + 1, wr'.command A.json⟩ ∧
      (a.handlers.length ≤ k' → p < p') := by
  have ha' : Api.Reachable A cfg a' := ha.trans hr
  have hw := (follows_reachable (handlerOK_reachable ha).1).1
  have hw' := (follows_reachable (handlerOK_reachable ha').1).1
  obtain ⟨j, c, hj, hacked, _⟩ := acked_of_status ha hk hph hwr hst
  obtain ⟨j', c', hj', hacked', _⟩ := acked_of_status ha' hk' hph' hwr' hst'
  have hkept := answered_kept hr hk hph
  have hackedLater := acked_kept hr.server hacked
  obtain ⟨hpos, hentry⟩ := acked_write ha' hkept hwr hj hackedLater
  obtain ⟨hpos', hentry'⟩ := acked_write ha' hk' hwr' hj' hacked'
  have hsub : c.index - 1 + 1 = c.index := by omega
  have hsub' : c'.index - 1 + 1 = c'.index := by omega
  refine ⟨c.index - 1, c'.index - 1, c.term, c'.term, ?_, ?_, ?_, ?_, ?_⟩
  · -- with the same index they would be the same call
    intro hsame
    have hjj := hackedLater.unique hw' hacked' (by omega)
    exact hkk (calls_distinct ha' k k' j h h' hkept hk' hj (by rw [hjj]; exact hj'))
  · exact (List.getElem?_eq_some_iff.mp (hacked.in_history hw).2).1
  · rw [hsub]; exact hentry
  · rw [hsub']; exact hentry'
  · intro hlater
    have hlt := (acknowledged_before hw (cluster_run hr.server) hacked
      (call_later hr k' j' h' hlater hk' hj') hacked')
    omega

/-- A second `PUT` arrives when the first has been answered. -/
def putAgainEvents : List ApiEvent :=
  [.arrive (putRequest "x" "2"), .handle 1, .handle 1, .background (.event (.replicateLog "b" "c")),
    .background (.event (.appendEntries 1)), .background (.event (.appendReply 1)),
    .background (.event (.collectApply "b")), .background (.event (.sendApply "b")),
    .background (.event (.finishApply "b")), .handle 1]

theorem writes_in_order_abc : ∃ a a' : Api OneFile, Api.Reachable plainSetup volatileABC a ∧
    Api.Run plainSetup volatileABC a a' ∧ ∃ p p' term term' : Nat, p < p' ∧
      (a'.server.cluster.history volatileABC)[p]? = some ⟨term, p + 1,
        serializePut plainCommands (bytesOf "x") (bytesOf "1")⟩ ∧
      (a'.server.cluster.history volatileABC)[p']? = some ⟨term', p' + 1,
        serializePut plainCommands (bytesOf "x") (bytesOf "2")⟩ := by
  obtain ⟨a, hx, hk, hlen, a', hx', hk'⟩ : ∃ a ∈ Execution.exec (Api.step plainSetup volatileABC)
      (Api.init volatileABC) putEvents, a.handlers[0]? = some putDone ∧ a.handlers.length ≤ 1 ∧
      ∃ a' ∈ Execution.exec (Api.step plainSetup volatileABC) a putAgainEvents,
        a'.handlers[1]? = some ⟨putRequest "x" "2",
          .answered ((Write.put (bytesOf "x") (bytesOf "2")).done 2 1),
          some (.put (bytesOf "x") (bytesOf "2")), some 1⟩ := by
    decide +kernel
  have ha : Api.Reachable plainSetup volatileABC a := Execution.run_of_exec hx
  have hr : Api.Run plainSetup volatileABC a a' := Execution.run_of_exec hx'
  obtain ⟨p, p', t, t', _, _, hp, hp', horder⟩ :=
    writes_in_order ha hr (by decide) hk rfl rfl rfl hk' rfl rfl rfl
  exact ⟨a, a', ha, hr, p, p', t, t', horder hlen, hp, hp'⟩

/-! ## Where entries and values come from -/

/-- The entry has the command of a request that has arrived. -/
def Api.Requested (A : Setup) (a : Api ω) (e : LogEntry) : Prop :=
  ∃ h ∈ a.handlers, ∃ key wr, kvKey h.request.path = some key ∧
    h.request.write A key = some (.ok wr) ∧ e.command = wr.command A.json

omit [Journal ω] in
theorem request_of_moves {s' : Server ω} {h h' : Handler} (hm : Moves A cfg a s' h h') :
    h'.request = h.request := by
  cases hm <;> rfl

/-- Requests are not forgotten. -/
theorem Steps.requested (h : Steps A cfg a a') {e : LogEntry} (he : a.Requested A e) :
    a'.Requested A e := by
  obtain ⟨hd, hmem, key, wr, hkey, hwr, hcommand⟩ := he
  obtain ⟨k, hk⟩ := List.mem_iff_getElem?.mp hmem
  have hlt := (List.getElem?_eq_some_iff.mp hk).1
  have hreq : ∃ hd' ∈ a'.handlers, hd'.request = hd.request := by
    rcases h.handlers with heq | ⟨r, heq⟩ | ⟨j, h₀, h', hj, heq, hm⟩
    · exact ⟨hd, by rw [heq]; exact hmem, rfl⟩
    · exact ⟨hd, by rw [heq]; exact List.mem_append_left _ hmem, rfl⟩
    · by_cases hjk : j = k
      · subst hjk
        obtain rfl := Option.some.inj (hj.symm.trans hk)
        exact ⟨h', by rw [heq]; exact List.mem_set hlt h', request_of_moves hm⟩
      · refine ⟨hd, ?_, rfl⟩
        rw [heq]
        exact List.mem_of_getElem? ((List.getElem?_set_ne hjk).trans hk)
  obtain ⟨hd', hmem', heq⟩ := hreq
  exact ⟨hd', hmem', key, wr, by rw [heq]; exact hkey, by rw [heq]; exact hwr, hcommand⟩

theorem requested_reachable (ha : Api.Reachable A cfg a) :
    Authored (a.Requested A) a.server.cluster := by
  refine Execution.Run.invariant ha (authored_init _) ?_
  intro a₁ ev a₂ ha₁ ih hstep
  have hsteps := steps_of_step hstep
  obtain ⟨hs, hok⟩ := handlerOK_reachable ha₁
  have hold : Authored (a₂.Requested A) a₁.server.cluster := ih.mono fun e he => hsteps.requested he
  rcases hsteps.server with heq | ⟨e, hserver, hsubmit⟩
  · rw [heq]; exact hold
  rcases step_cases hserver with ⟨e', w, rfl, hact, heq⟩ | ⟨_, _, _, _, _, heq⟩ | ⟨_, _, _, heq⟩
  · rw [heq]
    refine authored_step (follows_reachable hs).1 hold hact ?_
    rintro i command rfl _
    -- only a handler that is about to write calls `SubmitCommand`
    obtain ⟨h, hmem, key, wr, hph, hwr, _, hcommand⟩ := hsubmit i command rfl
    obtain ⟨k, hk⟩ := List.mem_iff_getElem?.mp hmem
    exact hsteps.requested ⟨h, hmem, key, wr, ((hok k h hk).leading key hph).2.1, hwr, hcommand⟩
  · rw [heq]; exact hold
  · rw [heq]; exact hold

/-- A value that is found after an entry was there before, or the entry puts it there. -/
theorem put_of_applyEntry {J : CommandJson} {s : KVStore} {e : LogEntry} {key value : Bytes}
    (h : (Consumer.applyEntry J s e).get key = some value) : s.get key = some value ∨
      ∃ cmd, J.unmarshal e.command = some cmd ∧ cmd.op = cmdPut ∧ cmd.key = key ∧
        cmd.value = value := by
  unfold Consumer.applyEntry at h
  split at h
  swap
  · exact Or.inl h
  unfold KVStore.apply at h
  split at h
  · exact Or.inl h
  rename_i cmd hcmd
  unfold KVStore.perform at h
  split at h
  · rename_i hput
    by_cases hkey : key = cmd.key
    · rw [hkey, KVStore.get_put_self] at h
      exact Or.inr ⟨cmd, hcmd, hput, hkey.symm, Option.some.inj h⟩
    · rw [KVStore.get_put_ne _ hkey] at h
      exact Or.inl h
  · split at h
    · by_cases hkey : key = cmd.key
      · rw [hkey, KVStore.get_delete_self] at h
        exact absurd h (by simp)
      · rw [KVStore.get_delete_ne _ hkey] at h
        exact Or.inl h
    · exact Or.inl h

theorem put_of_foldl {J : CommandJson} {key value : Bytes} : ∀ {es : List LogEntry} {s : KVStore},
    (es.foldl (Consumer.applyEntry J) s).get key = some value →
    s.get key = some value ∨ ∃ e ∈ es, ∃ cmd, J.unmarshal e.command = some cmd ∧
      cmd.op = cmdPut ∧ cmd.key = key ∧ cmd.value = value := by
  intro es
  induction es with
  | nil => intro s h; exact Or.inl h
  | cons e es ih =>
      intro s h
      rcases ih h with h | ⟨e', he', hcmd⟩
      · rcases put_of_applyEntry h with h | hcmd
        · exact Or.inl h
        · exact Or.inr ⟨e, List.mem_cons_self, hcmd⟩
      · exact Or.inr ⟨e', List.mem_cons_of_mem _ he', hcmd⟩

/-- A write whose command is read back as a `put` is one. -/
theorem put_of_command {J : CommandJson} {wr : Write} {cmd : Command}
    (h : J.unmarshal (wr.command J) = some cmd) (hop : cmd.op = cmdPut) :
    ∃ k v, wr = .put k v ∧ cmd.key = sanitize k ∧ cmd.value = sanitize v := by
  cases wr with
  | put k v =>
      have heq := (J.unmarshal_marshal _).symm.trans h
      rw [← Option.some.inj heq]
      exact ⟨k, v, rfl, rfl, rfl⟩
  | delete k =>
      have heq := (J.unmarshal_marshal _).symm.trans h
      rw [← Option.some.inj heq] at hop
      have hdel : sanitize cmdDelete = cmdDelete := Utf8.sanitize_of_valid (Utf8.valid_encode _)
      exact absurd (hdel.symm.trans hop) (by decide)

/-- Only a `PUT` puts, and only under the key of its path. -/
theorem put_of_write {req : Request} {key k v : Bytes}
    (h : req.write A key = some (.ok (.put k v))) : req.method = .put ∧ k = key := by
  unfold Request.write at h
  split at h
  · rename_i hm
    have hput := Option.some.inj h
    unfold handlePut at hput
    split at hput
    · exact absurd hput (by simp)
    · split at hput
      · exact absurd hput (by simp)
      · injection hput with hput
        injection hput with hput
        exact ⟨hm, hput.symm⟩
  · injection Option.some.inj h with h
    exact absurd h (by simp)
  · exact absurd h (by simp)
  · exact absurd h (by simp)

/--
**Nothing comes from nowhere.** Every entry in the log of every node has the command of a
`PUT` or `DELETE` request that has arrived, and every value that any store holds under any
key is the value that a `PUT` request for the key carried, both as text can hold them.
-/
theorem nothing_from_nowhere (ha : Api.Reachable A cfg a) :
    (∀ i, ∀ e ∈ (a.node i).log.body, a.Requested A e) ∧
    (∀ i key value, (a.server.consumers i).store.get key = some value →
      ∃ h ∈ a.handlers, ∃ k v, h.request.method = .put ∧ kvKey h.request.path = some k ∧
        h.request.write A k = some (.ok (.put k v)) ∧ sanitize k = key ∧ sanitize v = value) := by
  have hlogs := (requested_reachable ha).logs
  refine ⟨hlogs, ?_⟩
  intro i key value hget
  obtain ⟨hs, _⟩ := handlerOK_reachable ha
  have hw := (follows_reachable hs).1
  rw [((follows_reachable hs).2 i).store] at hget
  rcases put_of_foldl hget with hget | ⟨e, he, cmd, hcmd, hop, rfl, rfl⟩
  · exact absurd hget (by simp [KVStore.newKVStore, KVStore.get])
  -- what was applied was sent, and so is in the log of the node
  obtain ⟨m, hsent, _, _⟩ := sent_take hw i
  have hmem : e ∈ a.server.cluster.applyCh i :=
    ((follows_reachable hs).2 i).received.subset (List.mem_append_left _ he)
  rw [hsent] at hmem
  obtain ⟨h, hh, k, wr, hkey, hwr, hcommand⟩ := hlogs i e (List.mem_of_mem_take hmem)
  rw [hcommand] at hcmd
  obtain ⟨k', v, rfl, hk', hv⟩ := put_of_command hcmd hop
  obtain ⟨hm, rfl⟩ := put_of_write hwr
  exact ⟨h, hh, k', v, hm, hkey, hwr, hk'.symm, hv.symm⟩

theorem nothing_from_nowhere_abc : ∃ a, Api.Reachable plainSetup volatileABC a ∧
    (a.server.consumers "b").store.get (bytesOf "x") = some (bytesOf "1") ∧
    ∃ h ∈ a.handlers, ∃ k v, h.request.method = .put ∧ sanitize k = bytesOf "x" ∧
      sanitize v = bytesOf "1" := by
  obtain ⟨a, hx, hget⟩ : ∃ a ∈ Execution.exec (Api.step plainSetup volatileABC)
      (Api.init volatileABC) (putEvents ++ [.background (.receive "b"), .background (.apply "b")]),
      (a.server.consumers "b").store.get (bytesOf "x") = some (bytesOf "1") := by
    decide +kernel
  have ha : Api.Reachable plainSetup volatileABC a := Execution.run_of_exec hx
  obtain ⟨h, hh, k, v, hm, _, _, hk, hv⟩ := (nothing_from_nowhere ha).2 "b" _ _ hget
  exact ⟨a, ha, hget, h, hh, k, v, hm, hk, hv⟩

end GammaFlow.Kv
