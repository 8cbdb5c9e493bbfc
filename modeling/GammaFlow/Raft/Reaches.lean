import GammaFlow.Raft.Driven
import GammaFlow.Raft.Lifetime
import GammaFlow.Raft.Rollback

/-!
# What a part of the cluster can reach

Runs in which only the members of a group take steps, and only messages between them are
delivered. Most of what the members do is not up to the event loop of `run`: the servers
answer, goroutines take the answers, and a leader has one goroutine for each peer that
sends what the peer lacks. Such a run can be had under the loops, whatever they are doing
(`Tracks.reaches`).

A loop that is awake comes round to an election, or to the heartbeats of a leader
(`reaches_ready`). A request has to fit what a server receives; no request of one who leads
is longer than its whole log makes it (`size_request`).
-/

namespace GammaFlow.Raft

open GammaFlow.Storage

variable {ω : Type}

/-- The two ends of an exchange. -/
def Cluster.exchange (w : Cluster ω) (m p : NodeID) : Exchange ω := ⟨w.nodes m, w.nodes p⟩

/-- All of a log fits into one request of `m`. -/
def OneRequest (limit : Nat) (m : NodeID) (log : RaftLog) : Prop :=
  maxRequestSize m (log.body.map LogEntry.command) ≤ limit

variable [Journal ω] {cfg : Config ω} {w w' w'' : Cluster ω} {s s' s'' : Driven ω} {limit : Nat}
  {Q : List NodeID}

/-! ## Runs that no loop takes part in -/

/-- A run of members of `Q` among themselves, without sections of `run`. -/
def RunUndriven (cfg : Config ω) (limit : Nat) (Q : List NodeID) : Cluster ω → Cluster ω → Prop :=
  Relation.ReflTransGen fun w w' =>
    ∃ ev : Event, ev.Undriven ∧ Among limit Q w ev ∧ w.act cfg ev = some w'

theorem RunUndriven.single (ev : Event) (hev : ev.Undriven) (ha : Among limit Q w ev)
    (hs : w.act cfg ev = some w') : RunUndriven cfg limit Q w w' :=
  Relation.ReflTransGen.single ⟨ev, hev, ha, hs⟩

theorem RunUndriven.reachable (h : RunUndriven cfg limit Q w w') (hw : Cluster.Reachable cfg w) :
    Cluster.Reachable cfg w' := by
  refine Relation.ReflTransGen.trans hw (Relation.ReflTransGen.mono ?_ _ _ h)
  rintro w w' ⟨ev, _, _, hs⟩
  exact ⟨ev, hs⟩

/-- The same if no call of a client begins or ends. -/
structure Reaches (cfg : Config ω) (limit : Nat) (Q : List NodeID) (w w' : Cluster ω) : Prop where
  run : RunUndriven cfg limit Q w w'
  submits : w'.submits = w.submits
  returned : w'.returned = w.returned

namespace Reaches

theorem refl (w : Cluster ω) : Reaches cfg limit Q w w := ⟨Relation.ReflTransGen.refl, rfl, rfl⟩

theorem step (ev : Event) (hev : ev.Undriven) (ha : Among limit Q w ev)
    (hs : w.act cfg ev = some w') (hsub : w'.submits = w.submits)
    (hret : w'.returned = w.returned) : Reaches cfg limit Q w w' :=
  ⟨.single ev hev ha hs, hsub, hret⟩

theorem trans (h : Reaches cfg limit Q w w') (h' : Reaches cfg limit Q w' w'') :
    Reaches cfg limit Q w w'' :=
  ⟨h.run.trans h'.run, h'.submits.trans h.submits, h'.returned.trans h.returned⟩

theorem reachable (h : Reaches cfg limit Q w w') (hw : Cluster.Reachable cfg w) :
    Cluster.Reachable cfg w' := h.run.reachable hw

end Reaches

/-- A run of members of `Q` among themselves in which no call of a client begins or ends. -/
structure Driven.Reaches (cfg : Config ω) (limit : Nat) (Q : List NodeID) (s s' : Driven ω) :
    Prop where
  run : s.RunAmong cfg limit Q s'
  submits : s'.cluster.submits = s.cluster.submits
  returned : s'.cluster.returned = s.cluster.returned

namespace Driven.Reaches

theorem refl (s : Driven ω) : s.Reaches cfg limit Q s := ⟨Relation.ReflTransGen.refl, rfl, rfl⟩

theorem step (ev : DrivenEvent) (ha : s.Among limit Q ev) (hs : s.step cfg ev = some s')
    (hsub : s'.cluster.submits = s.cluster.submits)
    (hret : s'.cluster.returned = s.cluster.returned) : s.Reaches cfg limit Q s' :=
  ⟨Relation.ReflTransGen.single ⟨ev, ha, hs⟩, hsub, hret⟩

theorem trans (h : s.Reaches cfg limit Q s') (h' : s'.Reaches cfg limit Q s'') :
    s.Reaches cfg limit Q s'' :=
  ⟨h.run.trans h'.run, h'.submits.trans h.submits, h'.returned.trans h.returned⟩

end Driven.Reaches

omit [Journal ω] in
theorem among_timed (w : Cluster ω) (rts : NodeID → Runtime) (ev : Event) :
    Among limit Q (w.timed rts) ev ↔ Among limit Q w ev := by
  cases ev <;> rfl

/-- A step that no loop takes part in happens under the loops as well. -/
theorem Tracks.step (h : Tracks cfg s w) {ev : Event} (hev : ev.Undriven)
    (ha : Among limit Q w ev) (hs : w.act cfg ev = some w') : ∃ s', s.RunAmong cfg limit Q s' ∧
      s'.loops = s.loops ∧ Tracks cfg s' w' := by
  obtain ⟨rts, hrts⟩ := h.timers
  obtain ⟨rts', hact⟩ := h.act hs
  have hstep : s.step cfg (.event ev) = some { s with cluster := w'.timed rts' } := by
    rw [step_undriven hev, hact]
    rfl
  have hamong : s.Among limit Q (.event ev) := by
    show Among limit Q s.cluster ev
    rw [hrts]
    exact (among_timed w rts ev).mpr ha
  exact ⟨_, Relation.ReflTransGen.single ⟨.event ev, hamong, hstep⟩, rfl,
    h.driven.tail ⟨.event ev, hstep⟩, h.undriven.tail ⟨ev, hs⟩, rts', rfl⟩

/-- So does a run. -/
theorem Tracks.run (h : Tracks cfg s w) (hr : RunUndriven cfg limit Q w w') :
    ∃ s', s.RunAmong cfg limit Q s' ∧ s'.loops = s.loops ∧ Tracks cfg s' w' := by
  induction hr with
  | refl => exact ⟨s, Relation.ReflTransGen.refl, rfl, h⟩
  | tail _ hstep ih =>
      obtain ⟨s₁, hrun, hloops, h₁⟩ := ih
      obtain ⟨ev, hev, ha, hs⟩ := hstep
      obtain ⟨s₂, hlast, hloops₂, h₂⟩ := h₁.step hev ha hs
      exact ⟨s₂, hrun.trans hlast, hloops₂.trans hloops, h₂⟩

theorem Tracks.submits (h : Tracks cfg s w) : s.cluster.submits = w.submits := by
  obtain ⟨rts, hrts⟩ := h.timers
  rw [hrts]
  rfl

theorem Tracks.returned (h : Tracks cfg s w) : s.cluster.returned = w.returned := by
  obtain ⟨rts, hrts⟩ := h.timers
  rw [hrts]
  rfl

theorem Tracks.reaches (h : Tracks cfg s w) (hr : Reaches cfg limit Q w w') :
    ∃ s', s.Reaches cfg limit Q s' ∧ s'.loops = s.loops ∧ Tracks cfg s' w' := by
  obtain ⟨s', hrun, hloops, h'⟩ := h.run hr.run
  refine ⟨s', ⟨hrun, ?_, ?_⟩, hloops, h'⟩
  · rw [h'.submits, hr.submits, h.submits]
  · rw [h'.returned, hr.returned, h.returned]

/-! ## Messages there and back -/

/-- A vote is asked for, and the answer taken. -/
theorem reaches_vote {m p : NodeID} {args : RequestVoteArgs} (hc : ⟨m, p, args⟩ ∈ w.voteCalls)
    (hm : m ∈ Q) (hp : p ∈ Q) (hne : m ≠ p) (hsize : (sendRequestVote args).size ≤ limit) :
    ∃ w', Reaches cfg limit Q w w' ∧
      w'.nodes p = ((w.nodes p).handleRequestVote args).1 ∧
      w'.nodes m = (w.nodes m).handleVoteReply args.term p
        ((w.nodes p).handleRequestVote args).2 ∧
      (∀ i, i ≠ m → i ≠ p → w'.nodes i = w.nodes i) ∧ w'.voteCalls = w.voteCalls := by
  obtain ⟨k, hk⟩ := List.mem_iff_getElem?.mp hc
  let w₁ : Cluster ω := { w.setNode p ((w.nodes p).handleRequestVote args).1 with
    voteReplies := w.voteReplies ++ [(⟨m, p, args⟩, ((w.nodes p).handleRequestVote args).2)] }
  have hs₁ : w.act cfg (.requestVote k) = some w₁ := by rw [Cluster.act, hk]; rfl
  have hlast : w₁.voteReplies[w.voteReplies.length]? =
      some (⟨m, p, args⟩, ((w.nodes p).handleRequestVote args).2) := List.getElem?_concat_length
  have hs₂ : w₁.act cfg (.voteReply w.voteReplies.length) = some (w₁.setNode m
      ((w₁.nodes m).handleVoteReply args.term p ((w.nodes p).handleRequestVote args).2)) := by
    rw [Cluster.act, hlast]; rfl
  have hnode : w₁.nodes m = w.nodes m := setNode_ne _ _ _ hne
  have hr₁ : Reaches cfg limit Q w w₁ :=
    .step (.requestVote k) trivial ⟨_, hk, hm, hp, hsize⟩ hs₁ rfl rfl
  have hr₂ : Reaches cfg limit Q w₁ _ :=
    .step (.voteReply w.voteReplies.length) trivial ⟨_, hlast, hm, hp⟩ hs₂ rfl rfl
  refine ⟨_, hr₁.trans hr₂, ?_, ?_, ?_, rfl⟩
  · rw [setNode_ne _ _ _ (Ne.symm hne)]; exact setNode_self _ _ _
  · rw [setNode_self, hnode]
  · intro i hi hip
    rw [setNode_ne _ _ _ hi]; exact setNode_ne _ _ _ hip

/-- A request of `AppendEntries` is delivered, and the answer taken. -/
theorem reaches_append {m p : NodeID} {args : AppendEntriesArgs} (hc : ⟨m, p, args⟩ ∈ w.appendCalls)
    (hm : m ∈ Q) (hp : p ∈ Q) (hne : m ≠ p) (hsize : (sendAppendEntries args).size ≤ limit) :
    ∃ w', Reaches cfg limit Q w w' ∧
      w'.nodes p = ((w.nodes p).handleAppendEntries args).1 ∧
      w'.nodes m = (w.nodes m).handleAppendReply args.term p args.entries
        ((w.nodes p).handleAppendEntries args).2 ∧
      ∀ i, i ≠ m → i ≠ p → w'.nodes i = w.nodes i := by
  obtain ⟨k, hk⟩ := List.mem_iff_getElem?.mp hc
  let w₁ : Cluster ω := { w.setNode p ((w.nodes p).handleAppendEntries args).1 with
    appendReplies := w.appendReplies ++ [(⟨m, p, args⟩, ((w.nodes p).handleAppendEntries args).2)] }
  have hs₁ : w.act cfg (.appendEntries k) = some w₁ := by rw [Cluster.act, hk]; rfl
  have hlast : w₁.appendReplies[w.appendReplies.length]? =
      some (⟨m, p, args⟩, ((w.nodes p).handleAppendEntries args).2) := List.getElem?_concat_length
  have hs₂ : w₁.act cfg (.appendReply w.appendReplies.length) = some (w₁.setNode m
      ((w₁.nodes m).handleAppendReply args.term p args.entries
        ((w.nodes p).handleAppendEntries args).2)) := by
    rw [Cluster.act, hlast]; rfl
  have hnode : w₁.nodes m = w.nodes m := setNode_ne _ _ _ hne
  have hr₁ : Reaches cfg limit Q w w₁ :=
    .step (.appendEntries k) trivial ⟨_, hk, hm, hp, hsize⟩ hs₁ rfl rfl
  have hr₂ : Reaches cfg limit Q w₁ _ :=
    .step (.appendReply w.appendReplies.length) trivial ⟨_, hlast, hm, hp⟩ hs₂ rfl rfl
  refine ⟨_, hr₁.trans hr₂, ?_, ?_, ?_⟩
  · rw [setNode_ne _ _ _ (Ne.symm hne)]; exact setNode_self _ _ _
  · rw [setNode_self, hnode]
  · intro i hi hip
    rw [setNode_ne _ _ _ hi]; exact setNode_ne _ _ _ hip

theorem peers_reachable (hw : Cluster.Reachable cfg w) (i : NodeID) :
    (w.nodes i).peers = cfg.peers i := by
  obtain ⟨S, hS⟩ := sim_reachable hw
  exact (hS.nodes i).peers

theorem id_reachable (hw : Cluster.Reachable cfg w) (i : NodeID) : (w.nodes i).id = i := by
  obtain ⟨S, hS⟩ := sim_reachable hw
  exact (hS.nodes i).id

theorem mem_peers_reachable (hw : Cluster.Reachable cfg w) {m p : NodeID} (hm : m ∈ cfg.ids)
    (hp : p ∈ cfg.ids) (hne : p ≠ m) : p ∈ (w.nodes m).peers := by
  rw [peers_reachable hw, (cfg.peers_perm m hm).mem_iff]
  exact (List.mem_erase_of_ne hne).mpr hp

/-- A leader sends no more than its log. -/
theorem size_request (hw : Cluster.Reachable cfg w) {m p : NodeID}
    (hl : (w.nodes m).state = .leader) (hp : p ∈ (w.nodes m).peers)
    (hfits : OneRequest limit m (w.nodes m).log) :
    (sendAppendEntries ((w.exchange m p).request p)).size ≤ limit := by
  have hpos := (HasLed.now hw hl).next_pos p hp
  have hents : ((w.exchange m p).request p).entries =
      (w.nodes m).log.body.drop ((w.nodes m).nextIndex p - 1) := RaftLog.entriesFrom_eq _ hpos
  have hsub : (((w.exchange m p).request p).entries.map LogEntry.command).Sublist
      ((w.nodes m).log.body.map LogEntry.command) := by
    rw [hents]
    exact (List.drop_sublist _ _).map _
  have hsize := size_sendAppendEntries_le ((w.exchange m p).request p)
  rw [show ((w.exchange m p).request p).leaderID = m from id_reachable hw m] at hsize
  exact (hsize.trans (maxRequestSize_mono m hsub)).trans hfits

/-- The replication goroutine of a leader sends what a peer lacks, and takes the answer. -/
theorem reaches_replicate (hw : Cluster.Reachable cfg w) {m p : NodeID} (hm : m ∈ cfg.ids)
    (hmQ : m ∈ Q) (hpQ : p ∈ Q) (hne : m ≠ p) (hl : (w.nodes m).state = .leader)
    (hp : p ∈ (w.nodes m).peers) (hfits : OneRequest limit m (w.nodes m).log)
    (hsome : ((w.exchange m p).request p).entries ≠ []) :
    ∃ w', Reaches cfg limit Q w w' ∧
      w'.nodes p = ((w.nodes p).handleAppendEntries ((w.exchange m p).request p)).1 ∧
      w'.nodes m = (w.nodes m).handleAppendReply (w.nodes m).currentTerm p
        ((w.exchange m p).request p).entries
        ((w.nodes p).handleAppendEntries ((w.exchange m p).request p)).2 ∧
      ∀ i, i ≠ m → i ≠ p → w'.nodes i = w.nodes i := by
  let w₁ : Cluster ω := { w with
    appendCalls := w.appendCalls ++ [⟨m, p, (w.exchange m p).request p⟩] }
  have hs : w.act cfg (.replicateLog m p) = some w₁ := if_pos ⟨hm, hp, hl, hsome⟩
  have hr : Reaches cfg limit Q w w₁ :=
    .step (.replicateLog m p) trivial ⟨hmQ, hpQ⟩ hs rfl rfl
  have hcall : ⟨m, p, (w.exchange m p).request p⟩ ∈ w₁.appendCalls :=
    List.mem_append_right _ (List.mem_singleton_self _)
  obtain ⟨w', hr', h⟩ : ∃ w', Reaches cfg limit Q w₁ w' ∧ _ :=
    reaches_append hcall hmQ hpQ hne (size_request hw hl hp hfits)
  exact ⟨w', hr.trans hr', h⟩

/-- The goroutine of a heartbeat builds its request, sends it and takes the answer. -/
theorem reaches_heartbeat {m p : NodeID} {term commitIndex : Nat} {leaderID : NodeID}
    (hmem : ⟨m, p, term, leaderID, commitIndex⟩ ∈ w.heartbeats) (hm : m ∈ Q) (hp : p ∈ Q)
    (hne : m ≠ p) {args : AppendEntriesArgs}
    (hargs : (w.nodes m).buildRequest p term leaderID commitIndex = args)
    (hsize : (sendAppendEntries args).size ≤ limit) : ∃ w', Reaches cfg limit Q w w' ∧
      w'.nodes p = ((w.nodes p).handleAppendEntries args).1 ∧
      w'.nodes m = (w.nodes m).handleAppendReply args.term p args.entries
        ((w.nodes p).handleAppendEntries args).2 ∧
      ∀ i, i ≠ m → i ≠ p → w'.nodes i = w.nodes i := by
  subst hargs
  obtain ⟨k, hk⟩ := List.mem_iff_getElem?.mp hmem
  let w₁ : Cluster ω := { w with
    appendCalls := w.appendCalls ++
      [⟨m, p, (w.nodes m).buildRequest p term leaderID commitIndex⟩] }
  have hs : w.act cfg (.readHeartbeat k) = some w₁ := by rw [Cluster.act, hk]; rfl
  have hr : Reaches cfg limit Q w w₁ :=
    .step (.readHeartbeat k) trivial ⟨_, hk, hm, hp⟩ hs rfl rfl
  have hcall : ⟨m, p, (w.nodes m).buildRequest p term leaderID commitIndex⟩ ∈ w₁.appendCalls :=
    List.mem_append_right _ (List.mem_singleton_self _)
  obtain ⟨w', hr', h⟩ : ∃ w', Reaches cfg limit Q w₁ w' ∧ _ := reaches_append hcall hm hp hne hsize
  exact ⟨w', hr.trans hr', h⟩

/-! ## Loops that are awake -/

omit [Journal ω] in
theorem awake_of_loop {m : NodeID} {l : Loop} (hl : s.loops m = l) (hne : ∀ t, l ≠ .parked t) :
    s.Awake m := fun t ht => absurd (hl.symm.trans ht) (hne t)

theorem Tracks.state (h : Tracks cfg s w) (m : NodeID) :
    (s.cluster.nodes m).state = (w.nodes m).state := by
  obtain ⟨rts, hrts⟩ := h.timers
  rw [hrts]
  rfl

/-- The loop of `m`, or one of its timers, takes a step. -/
theorem reaches_tick (h : Tracks cfg s w) {m : NodeID} (hm : m ∈ cfg.ids) (hQ : m ∈ Q) (t : Tick)
    {l : Looping ω} (hl : (s.looping m).step t.event = some l) :
    ∃ s', s.Reaches cfg limit Q s' ∧ Tracks cfg s' w ∧ s'.looping m = l := by
  let s' : Driven ω := { s.setLoop m l.loop with cluster := s.cluster.setNode m l.node }
  have hstep : s.step cfg (.tick m t) = some s' := by
    rw [Driven.step, if_pos hm, hl]
    rfl
  refine ⟨s', .step (.tick m t) hQ hstep rfl rfl,
    ⟨h.driven.tail ⟨_, hstep⟩, h.undriven, tracks_tick h hl⟩, ?_⟩
  rw [looping_setLoop, setNode_self]

/-- The loop of `m` is about to call an election, or to send the heartbeats of a leader. -/
def Ready (m : NodeID) (w : Cluster ω) (s : Driven ω) : Prop :=
  s.loops m = .electing ∨ s.loops m = .beating ∧ (w.nodes m).state = .leader

section Ready

variable {m : NodeID}

theorem ready_of_woken (h : Tracks cfg s w) (hm : m ∈ cfg.ids) (hQ : m ∈ Q)
    (hl : s.loops m = .woken) :
    ∃ s', s.Reaches cfg limit Q s' ∧ Tracks cfg s' w ∧ Ready m w s' := by
  have hstep : (s.looping m).step .readState = some { s.looping m with
      loop := if (s.cluster.nodes m).state = .leader then .beating else .electing } := by
    rw [Looping.step, Driven.looping, hl]
  obtain ⟨s', hr, h', hlooping⟩ := reaches_tick h hm hQ .readState hstep
  have hloop : s'.loops m = _ := congrArg Looping.loop hlooping
  refine ⟨s', hr, h', ?_⟩
  rw [Ready, hloop, ← h.state m]
  dsimp only
  split
  · rename_i hlead; exact Or.inr ⟨rfl, hlead⟩
  · exact Or.inl rfl

/-- The tick of a timer that runs, or has expired, arrives. -/
theorem ready_of_parked (h : Tracks cfg s w) (hm : m ∈ cfg.ids) (hQ : m ∈ Q) {t : Nat}
    (hl : s.loops m = .parked t) (ha : (s.cluster.nodes m).rt.Alive t) :
    ∃ s', s.Reaches cfg limit Q s' ∧ Tracks cfg s' w ∧ Ready m w s' := by
  have hfired : ∀ {s : Driven ω}, Tracks cfg s w → s.loops m = .parked t →
      (s.cluster.nodes m).rt.timers[t]? = some .fired →
      ∃ s', s.Reaches cfg limit Q s' ∧ Tracks cfg s' w ∧ Ready m w s' := by
    intro s h hl ht
    have hstep : (s.looping m).step .receive = some
        { node := { s.cluster.nodes m with
            rt := (s.cluster.nodes m).rt.onTimer (some t) Timer.drain }, loop := .woken } := by
      rw [Looping.step, Driven.looping, hl]
      exact if_pos ht
    obtain ⟨s₁, hr₁, h₁, hlooping⟩ := reaches_tick h hm hQ .receive hstep
    obtain ⟨s₂, hr₂, h₂⟩ := ready_of_woken h₁ hm hQ (congrArg Looping.loop hlooping)
    exact ⟨s₂, hr₁.trans hr₂, h₂⟩
  -- a timer that runs has to expire first
  rcases ha with harmed | ht
  · have hstep : (s.looping m).step (.fire t) = some { s.looping m with
        node := { s.cluster.nodes m with
          rt := (s.cluster.nodes m).rt.onTimer (some t) fun _ => .fired } } := if_pos harmed
    obtain ⟨s₁, hr₁, h₁, hlooping⟩ := reaches_tick h hm hQ (.fire t) hstep
    have hloop : s₁.loops m = .parked t := (congrArg Looping.loop hlooping).trans hl
    have hnode : s₁.cluster.nodes m = _ := congrArg Looping.node hlooping
    obtain ⟨s₂, hr₂, h₂⟩ := hfired h₁ hloop (by
      rw [hnode]
      dsimp only
      rw [Runtime.timers_onTimer, if_pos rfl, harmed]
      rfl)
    exact ⟨s₂, hr₁.trans hr₂, h₂⟩
  · exact hfired h hl ht

/-- The loop parks on the timer of the role, which runs. -/
theorem ready_of_choosing (h : Tracks cfg s w) (hm : m ∈ cfg.ids) (hQ : m ∈ Q)
    (hl : s.loops m = .choosing) :
    ∃ s', s.Reaches cfg limit Q s' ∧ Tracks cfg s' w ∧ Ready m w s' := by
  have hinv := timerInv_reachable h.driven m
  obtain ⟨t, ht⟩ : ∃ t, Looping.timerCh (s.cluster.nodes m) = some t := by
    unfold Looping.timerCh
    cases hst : (s.cluster.nodes m).state with
    | leader =>
        obtain ⟨t, ht, _⟩ := hinv.leading hst
        exact ⟨t, ht⟩
    | follower => exact ⟨0, hinv.election⟩
    | candidate => exact ⟨0, hinv.election⟩
  have hstep : (s.looping m).step .choose = some { s.looping m with loop := .parked t } := by
    rw [Looping.step, Driven.looping, hl]
    dsimp only
    rw [ht]
  obtain ⟨s₁, hr₁, h₁, hlooping⟩ := reaches_tick h hm hQ .choose hstep
  have hnode : s₁.cluster.nodes m = s.cluster.nodes m := congrArg Looping.node hlooping
  obtain ⟨s₂, hr₂, h₂⟩ := ready_of_parked h₁ hm hQ (congrArg Looping.loop hlooping)
    (by rw [hnode]; exact (hinv.chosen hl ht).1)
  exact ⟨s₂, hr₁.trans hr₂, h₂⟩

theorem ready_of_rearming (h : Tracks cfg s w) (hm : m ∈ cfg.ids) (hQ : m ∈ Q)
    (hl : s.loops m = .rearming) :
    ∃ s', s.Reaches cfg limit Q s' ∧ Tracks cfg s' w ∧ Ready m w s' := by
  have hstep : (s.looping m).step .rearm = some { node := { s.cluster.nodes m with
      rt := (s.cluster.nodes m).rt.resetHeartbeatTimer }, loop := .choosing } := by
    rw [Looping.step, Driven.looping, hl]
  obtain ⟨s₁, hr₁, h₁, hlooping⟩ := reaches_tick h hm hQ .rearm hstep
  obtain ⟨s₂, hr₂, h₂⟩ := ready_of_choosing h₁ hm hQ (congrArg Looping.loop hlooping)
  exact ⟨s₂, hr₁.trans hr₂, h₂⟩

/-- **A loop that is awake comes round**, wherever it is. -/
theorem reaches_ready (h : Tracks cfg s w) (hm : m ∈ cfg.ids) (hQ : m ∈ Q) (hawake : s.Awake m) :
    ∃ s', s.Reaches cfg limit Q s' ∧ Tracks cfg s' w ∧ Ready m w s' := by
  cases hl : s.loops m with
  | choosing => exact ready_of_choosing h hm hQ hl
  | parked t => exact ready_of_parked h hm hQ hl (hawake t hl)
  | woken => exact ready_of_woken h hm hQ hl
  | electing => exact ⟨s, .refl s, h, Or.inl hl⟩
  | rearming => exact ready_of_rearming h hm hQ hl
  | beating =>
      by_cases hlead : (w.nodes m).state = .leader
      · exact ⟨s, .refl s, h, Or.inr ⟨hl, hlead⟩⟩
      -- deposed in between: nothing is sent
      have hnone : s.cluster.act cfg (.sendHeartbeats m) = none :=
        if_neg fun hc => hlead ((h.state m).symm.trans hc.2)
      have hstep : s.step cfg (.event (.sendHeartbeats m)) = some (s.setLoop m .rearming) := by
        rw [Driven.step]
        dsimp only
        rw [if_pos hl, hnone]
        rfl
      have hr₁ : s.Reaches cfg limit Q (s.setLoop m .rearming) :=
        .step (.event (.sendHeartbeats m)) hQ hstep rfl rfl
      have h₁ : Tracks cfg (s.setLoop m .rearming) w :=
        ⟨h.driven.tail ⟨_, hstep⟩, h.undriven, h.timers⟩
      obtain ⟨s₂, hr₂, h₂⟩ := ready_of_rearming h₁ hm hQ (Function.update_self _ _ _)
      exact ⟨s₂, hr₁.trans hr₂, h₂⟩

/-- The loop of someone who does not lead comes round to an election. -/
theorem reaches_electing (h : Tracks cfg s w) (hm : m ∈ cfg.ids) (hQ : m ∈ Q)
    (hawake : s.Awake m) (hst : (w.nodes m).state ≠ .leader) :
    ∃ s', s.Reaches cfg limit Q s' ∧ Tracks cfg s' w ∧ s'.loops m = .electing := by
  obtain ⟨s', hr, h', hready⟩ := reaches_ready h hm hQ hawake
  rcases hready with hl | ⟨_, hlead⟩
  · exact ⟨s', hr, h', hl⟩
  · exact absurd hlead hst

end Ready

end GammaFlow.Raft
