import GammaFlow.Raft.Writes

/-!
# The event loop

`Node.run` picks a timer channel under the lock, by the role the node has then, and
parks on it after it has released the lock. The handlers of replies and requests run
in between: they change the role, and they stop and start the timers, without a word
to the loop.

The loop is safe as long as the role stays on the same side while it is parked. If
the node becomes leader while the loop waits for an election timeout, that timer is
stopped under it; if leadership ends while the loop waits for the next heartbeat, the
heartbeat timer is. Either way it waits for a tick that does not come
(`wakeups_iff_steady`).
-/

namespace GammaFlow.Raft

open GammaFlow.Storage

variable {ω : Type}

/-- Where the loop is between two lock acquisitions. -/
inductive Loop where
  | choosing
  /-- Blocked on the channel of timer `t`. -/
  | parked (t : Nat)
  /-- A tick was received, and the role not yet looked up. -/
  | woken
  | electing
  | beating
  | rearming
  deriving DecidableEq, Repr

structure Looping (ω : Type) where
  node : Node ω
  loop : Loop

/-- The sections of the loop, the expiry of a timer, and the sections of the handlers. -/
inductive LoopEvent where
  | choose
  | receive
  | readState
  | startElection
  | sendHeartbeats
  | rearm
  | fire (t : Nat)
  | voteReply (term : Nat) (p : NodeID) (reply : RequestVoteReply)
  | appendReply (term : Nat) (peer : NodeID) (entries : List LogEntry) (reply : AppendEntriesReply)
  | requestVote (args : RequestVoteArgs)
  | appendEntries (args : AppendEntriesArgs)
  | submitCommand (command : Command)
  deriving DecidableEq, Repr

namespace Looping

/-- A started node, perhaps after a replay. -/
def init (id : NodeID) (peers : List NodeID) (wal : Option ω) (r : Replayed) : Looping ω where
  node := ((Node.newNode id peers wal).replay r).start
  loop := .choosing

/-- The channel `run` waits on next. -/
def timerCh (n : Node ω) : Option Nat :=
  match n.state with
  | .follower => n.rt.electionTimer
  | .candidate => n.rt.electionTimer
  | .leader => n.rt.heartbeatTimer

variable [Journal ω]

def step (s : Looping ω) : LoopEvent → Option (Looping ω)
  | .choose =>
      match s.loop, timerCh s.node with
      | .choosing, some t => some { s with loop := .parked t }
      -- no channel yet: sleep and try again
      | .choosing, none => some s
      | _, _ => none
  | .receive =>
      match s.loop with
      | .parked t =>
          if s.node.rt.timers[t]? = some .fired then
            some { node := { s.node with rt := s.node.rt.onTimer (some t) Timer.drain }, loop := .woken }
          else none
      | _ => none
  | .readState =>
      match s.loop with
      | .woken => some { s with loop := if s.node.state = .leader then .beating else .electing }
      | _ => none
  | .startElection =>
      match s.loop with
      | .electing => some { node := s.node.startElection.1, loop := .choosing }
      | _ => none
  | .sendHeartbeats =>
      match s.loop with
      | .beating => some { s with loop := .rearming }
      | _ => none
  | .rearm =>
      match s.loop with
      | .rearming =>
          some { node := { s.node with rt := s.node.rt.resetHeartbeatTimer }, loop := .choosing }
      | _ => none
  | .fire t =>
      if s.node.rt.timers[t]? = some .armed then
        some { s with node := { s.node with rt := s.node.rt.onTimer (some t) fun _ => .fired } }
      else none
  | .voteReply term p reply => some { s with node := s.node.handleVoteReply term p reply }
  | .appendReply term peer entries reply =>
      some { s with node := s.node.handleAppendReply term peer entries reply }
  | .requestVote args => some { s with node := (s.node.handleRequestVote args).1 }
  | .appendEntries args => some { s with node := (s.node.handleAppendEntries args).1 }
  | .submitCommand command => some { s with node := (s.node.submitCommand command).1 }

/-- What a step can be, with what had to hold for it. -/
inductive Steps (s : Looping ω) : LoopEvent → Looping ω → Prop
  | park (t : Nat) : s.loop = .choosing → timerCh s.node = some t →
      Steps s .choose { s with loop := .parked t }
  | sleep : s.loop = .choosing → timerCh s.node = none → Steps s .choose s
  | receive (t : Nat) : s.loop = .parked t → s.node.rt.timers[t]? = some .fired →
      Steps s .receive
        { node := { s.node with rt := s.node.rt.onTimer (some t) Timer.drain }, loop := .woken }
  | readState : s.loop = .woken →
      Steps s .readState { s with loop := if s.node.state = .leader then .beating else .electing }
  | startElection : s.loop = .electing →
      Steps s .startElection { node := s.node.startElection.1, loop := .choosing }
  | sendHeartbeats : s.loop = .beating → Steps s .sendHeartbeats { s with loop := .rearming }
  | rearm : s.loop = .rearming →
      Steps s .rearm { node := { s.node with rt := s.node.rt.resetHeartbeatTimer }, loop := .choosing }
  | fire (t : Nat) : s.node.rt.timers[t]? = some .armed →
      Steps s (.fire t)
        { s with node := { s.node with rt := s.node.rt.onTimer (some t) fun _ => .fired } }
  | voteReply (term : Nat) (p : NodeID) (reply : RequestVoteReply) :
      Steps s (.voteReply term p reply) { s with node := s.node.handleVoteReply term p reply }
  | appendReply (term : Nat) (peer : NodeID) (entries : List LogEntry)
      (reply : AppendEntriesReply) : Steps s (.appendReply term peer entries reply)
        { s with node := s.node.handleAppendReply term peer entries reply }
  | requestVote (args : RequestVoteArgs) :
      Steps s (.requestVote args) { s with node := (s.node.handleRequestVote args).1 }
  | appendEntries (args : AppendEntriesArgs) :
      Steps s (.appendEntries args) { s with node := (s.node.handleAppendEntries args).1 }
  | submitCommand (command : Command) :
      Steps s (.submitCommand command) { s with node := (s.node.submitCommand command).1 }

theorem steps_of_step {s s' : Looping ω} {ev : LoopEvent} (hs : s.step ev = some s') :
    Steps s ev s' := by
  cases ev with
  | choose =>
      rw [step] at hs
      split at hs
      · rename_i t hl ht
        obtain rfl := Option.some.inj hs
        exact .park t hl ht
      · rename_i hl ht
        obtain rfl := Option.some.inj hs
        exact .sleep hl ht
      · exact absurd hs (by simp)
  | receive =>
      rw [step] at hs
      split at hs
      · rename_i t hl
        split at hs
        · rename_i hfired
          obtain rfl := Option.some.inj hs
          exact .receive t hl hfired
        · exact absurd hs (by simp)
      · exact absurd hs (by simp)
  | readState =>
      rw [step] at hs
      split at hs
      · rename_i hl
        obtain rfl := Option.some.inj hs
        exact .readState hl
      · exact absurd hs (by simp)
  | startElection =>
      rw [step] at hs
      split at hs
      · rename_i hl
        obtain rfl := Option.some.inj hs
        exact .startElection hl
      · exact absurd hs (by simp)
  | sendHeartbeats =>
      rw [step] at hs
      split at hs
      · rename_i hl
        obtain rfl := Option.some.inj hs
        exact .sendHeartbeats hl
      · exact absurd hs (by simp)
  | rearm =>
      rw [step] at hs
      split at hs
      · rename_i hl
        obtain rfl := Option.some.inj hs
        exact .rearm hl
      · exact absurd hs (by simp)
  | fire t =>
      rw [step] at hs
      split at hs
      · rename_i ht
        obtain rfl := Option.some.inj hs
        exact .fire t ht
      · exact absurd hs (by simp)
  | voteReply term p reply =>
      obtain rfl := Option.some.inj hs
      exact .voteReply term p reply
  | appendReply term peer entries reply =>
      obtain rfl := Option.some.inj hs
      exact .appendReply term peer entries reply
  | requestVote args =>
      obtain rfl := Option.some.inj hs
      exact .requestVote args
  | appendEntries args =>
      obtain rfl := Option.some.inj hs
      exact .appendEntries args
  | submitCommand command =>
      obtain rfl := Option.some.inj hs
      exact .submitCommand command

end Looping

/-! ## Timers -/

namespace Runtime

/-- The timer runs, or its tick is waiting. -/
def Alive (rt : Runtime) (t : Nat) : Prop :=
  rt.timers[t]? = some .armed ∨ rt.timers[t]? = some .fired

instance (rt : Runtime) (t : Nat) : Decidable (rt.Alive t) := by unfold Alive; infer_instance

theorem timers_onTimer (rt : Runtime) (t : Nat) (f : Timer → Timer) (j : Nat) :
    (rt.onTimer (some t) f).timers[j]? = if t = j then rt.timers[j]?.map f else rt.timers[j]? := by
  unfold onTimer
  dsimp only
  rw [List.getElem?_modify]
  split
  · rfl
  · simp

/-- What an operation on timers leaves in place. -/
structure SamePlaces (rt rt' : Runtime) : Prop where
  election : rt'.electionTimer = rt.electionTimer
  heartbeat : rt'.heartbeatTimer = rt.heartbeatTimer
  length : rt'.timers.length = rt.timers.length

theorem SamePlaces.refl (rt : Runtime) : SamePlaces rt rt := ⟨rfl, rfl, rfl⟩

theorem SamePlaces.trans {a b c : Runtime} (h : SamePlaces a b) (h' : SamePlaces b c) :
    SamePlaces a c :=
  ⟨h'.election.trans h.election, h'.heartbeat.trans h.heartbeat, h'.length.trans h.length⟩

theorem samePlaces_onTimer (rt : Runtime) (t : Option Nat) (f : Timer → Timer) :
    SamePlaces rt (rt.onTimer t f) := by
  unfold onTimer
  split
  · exact SamePlaces.refl rt
  · exact ⟨rfl, rfl, List.length_modify _ _ _⟩

/-- Setting a timer to a state in which it ticks leaves the others alone. -/
theorem alive_onTimer_const {rt : Runtime} {t : Nat} {f : Timer → Timer} (ht : t < rt.timers.length)
    (hf : ∀ tm, f tm = .armed ∨ f tm = .fired) (j : Nat) :
    (rt.onTimer (some t) f).Alive j ↔ rt.Alive j ∨ j = t := by
  unfold Alive
  rw [timers_onTimer]
  by_cases hj : t = j
  · subst hj
    rw [if_pos rfl, List.getElem?_eq_getElem ht, Option.map_some]
    rcases hf rt.timers[t] with h | h
    · rw [h]; simp
    · rw [h]; simp
  · rw [if_neg hj]
    simp [Ne.symm hj]

theorem alive_onTimer_idle {rt : Runtime} {t : Nat} {f : Timer → Timer}
    (hf : ∀ tm, f tm = .idle) (j : Nat) :
    (rt.onTimer (some t) f).Alive j ↔ rt.Alive j ∧ j ≠ t := by
  unfold Alive
  rw [timers_onTimer]
  by_cases hj : t = j
  · subst hj
    rw [if_pos rfl]
    cases rt.timers[t]? with
    | none => simp
    | some tm => rw [Option.map_some, hf tm]; simp
  · rw [if_neg hj]
    simp [Ne.symm hj]

theorem alive_resetElectionTimerLocked {rt : Runtime} {e : Nat} (he : rt.electionTimer = some e)
    (hlt : e < rt.timers.length) (j : Nat) :
    rt.resetElectionTimerLocked.Alive j ↔ rt.Alive j ∨ j = e := by
  unfold resetElectionTimerLocked
  rw [he]
  exact alive_onTimer_const hlt (fun _ => Or.inl rfl) j

theorem samePlaces_resetElectionTimerLocked {rt : Runtime} {e : Nat}
    (he : rt.electionTimer = some e) : SamePlaces rt rt.resetElectionTimerLocked := by
  unfold resetElectionTimerLocked
  rw [he]
  exact samePlaces_onTimer rt _ _

theorem stop_idle (tm : Timer) : tm.stop.1 = .idle := by cases tm <;> rfl

theorem alive_stopLeading (rt : Runtime) (j : Nat) :
    rt.stopLeading.Alive j ↔ rt.Alive j ∧ rt.heartbeatTimer ≠ some j := by
  have hcancel : ∀ rt : Runtime, rt.cancelReplication.Alive j ↔ rt.Alive j := by
    intro rt
    unfold cancelReplication
    split <;> exact Iff.rfl
  unfold stopLeading
  rw [hcancel]
  unfold stopHeartbeatTimer
  cases hh : rt.heartbeatTimer with
  | none => simp [onTimer]
  | some h =>
      rw [alive_onTimer_idle stop_idle]
      simp [eq_comm]

theorem samePlaces_stopLeading (rt : Runtime) : SamePlaces rt rt.stopLeading := by
  have hcancel : ∀ rt : Runtime, SamePlaces rt rt.cancelReplication := by
    intro rt
    unfold cancelReplication
    split <;> exact ⟨rfl, rfl, rfl⟩
  exact (samePlaces_onTimer rt _ _).trans (hcancel _)

end Runtime

/-! ## What the handlers do to timers -/

section Effects

/-- The three things a handler can do, given that the election timer is timer `e`. -/
inductive Effect (e : Nat) (n n' : Node ω) : Prop
  /-- The role stays on its side, and no timer is stopped. -/
  | keep : (n'.state = .leader ↔ n.state = .leader) → Runtime.SamePlaces n.rt n'.rt →
      (∀ t, n.rt.Alive t → n'.rt.Alive t) → Effect e n n'
  /-- The node is no leader; its election timer runs, and the heartbeat timer of a leader is
  stopped. -/
  | down : n'.state ≠ .leader → Runtime.SamePlaces n.rt n'.rt → n'.rt.Alive e →
      (n.state = .leader → ∀ h, n.rt.heartbeatTimer = some h → h ≠ e → ¬ n'.rt.Alive h) →
      Effect e n n'
  /-- The node becomes leader with a fresh heartbeat timer, and its election timer is stopped. -/
  | up : n.state ≠ .leader → n'.state = .leader → n'.rt.electionTimer = n.rt.electionTimer →
      n'.rt.heartbeatTimer = some n.rt.timers.length →
      n'.rt.timers.length = n.rt.timers.length + 1 → n'.rt.Alive n.rt.timers.length →
      ¬ n'.rt.Alive e → Effect e n n'

variable {n : Node ω} {e : Nat}

theorem effect_refl (e : Nat) (n : Node ω) : Effect e n n :=
  .keep Iff.rfl (Runtime.SamePlaces.refl _) fun _ h => h

/-- An effect is about role and timers only. -/
theorem Effect.congr {n₁ n' : Node ω} (h : Effect e n n₁) (hs : n'.state = n₁.state)
    (hrt : n'.rt = n₁.rt) : Effect e n n' := by
  cases h with
  | keep h₁ h₂ h₃ => exact .keep (by rw [hs]; exact h₁) (by rw [hrt]; exact h₂) (by rw [hrt]; exact h₃)
  | down h₁ h₂ h₃ h₄ =>
      exact .down (by rw [hs]; exact h₁) (by rw [hrt]; exact h₂) (by rw [hrt]; exact h₃)
        (by rw [hrt]; exact h₄)
  | up h₁ h₂ h₃ h₄ h₅ h₆ h₇ =>
      exact .up h₁ (by rw [hs]; exact h₂) (by rw [hrt]; exact h₃) (by rw [hrt]; exact h₄)
        (by rw [hrt]; exact h₅) (by rw [hrt]; exact h₆) (by rw [hrt]; exact h₇)

/-- The timers stay where they were, and a fresh one is none of them. -/
theorem Effect.places {n' : Node ω} (h : Effect e n n') (he : n.rt.electionTimer = some e)
    (hlt : e < n.rt.timers.length)
    (hhb : ∀ t, n.rt.heartbeatTimer = some t → t < n.rt.timers.length ∧ t ≠ e) :
    n'.rt.electionTimer = some e ∧ e < n'.rt.timers.length ∧
      ∀ t, n'.rt.heartbeatTimer = some t → t < n'.rt.timers.length ∧ t ≠ e := by
  have hkeep : Runtime.SamePlaces n.rt n'.rt → n'.rt.electionTimer = some e ∧
      e < n'.rt.timers.length ∧
      ∀ t, n'.rt.heartbeatTimer = some t → t < n'.rt.timers.length ∧ t ≠ e := by
    intro hsame
    rw [hsame.election, hsame.heartbeat, hsame.length]
    exact ⟨he, hlt, hhb⟩
  cases h with
  | keep _ hsame _ => exact hkeep hsame
  | down _ hsame _ _ => exact hkeep hsame
  | up _ _ hel hfresh hlen _ _ =>
      rw [hel, hfresh, hlen]
      refine ⟨he, by omega, ?_⟩
      intro t ht
      rw [← Option.some.inj ht]
      omega

/-- Restarting the election timer on top of something. -/
theorem Effect.reset {n₁ n' : Node ω} (h : Effect e n n₁) (he : n.rt.electionTimer = some e)
    (hlt : e < n.rt.timers.length) (hnl : n₁.state ≠ .leader ∨ n₁ = n)
    (hs : n'.state = n₁.state) (hrt : n'.rt = n₁.rt.resetElectionTimerLocked) : Effect e n n' := by
  cases h with
  | keep hst hsame halive =>
      have he₁ := hsame.election.trans he
      have hlt₁ : e < n₁.rt.timers.length := by rw [hsame.length]; exact hlt
      refine .keep (by rw [hs]; exact hst) ?_ ?_
      · rw [hrt]; exact hsame.trans (Runtime.samePlaces_resetElectionTimerLocked he₁)
      · intro t ht
        rw [hrt, Runtime.alive_resetElectionTimerLocked he₁ hlt₁]
        exact Or.inl (halive t ht)
  | down hst hsame halive hstop =>
      have he₁ := hsame.election.trans he
      have hlt₁ : e < n₁.rt.timers.length := by rw [hsame.length]; exact hlt
      refine .down (by rw [hs]; exact hst) ?_ ?_ ?_
      · rw [hrt]; exact hsame.trans (Runtime.samePlaces_resetElectionTimerLocked he₁)
      · rw [hrt, Runtime.alive_resetElectionTimerLocked he₁ hlt₁]; exact Or.inr rfl
      · intro hl h hh hne ha
        rw [hrt, Runtime.alive_resetElectionTimerLocked he₁ hlt₁] at ha
        rcases ha with ha | ha
        · exact hstop hl h hh hne ha
        · exact hne ha
  | up h₀ h₁ _ _ _ _ _ =>
      rcases hnl with hnl | hnl
      · exact absurd h₁ hnl
      · rw [hnl] at h₁; exact absurd h₁ h₀

theorem effect_stopLeading (he : n.rt.electionTimer = some e) (hlt : e < n.rt.timers.length)
    {n' : Node ω} (hs : n'.state ≠ .leader)
    (hrt : n'.rt = n.rt.stopLeading.resetElectionTimerLocked) : Effect e n n' := by
  have hsame := n.rt.samePlaces_stopLeading
  have he₁ := hsame.election.trans he
  have hlt₁ : e < n.rt.stopLeading.timers.length := by rw [hsame.length]; exact hlt
  refine .down hs ?_ ?_ ?_
  · rw [hrt]; exact hsame.trans (Runtime.samePlaces_resetElectionTimerLocked he₁)
  · rw [hrt, Runtime.alive_resetElectionTimerLocked he₁ hlt₁]; exact Or.inr rfl
  · intro _ h hh hhe ha
    rw [hrt, Runtime.alive_resetElectionTimerLocked he₁ hlt₁, Runtime.alive_stopLeading] at ha
    rcases ha with ⟨_, ha⟩ | ha
    · exact ha hh
    · exact hhe ha

theorem effect_becomeLeaderLocked (hl : n.state ≠ .leader) (he : n.rt.electionTimer = some e)
    (hlt : e < n.rt.timers.length) {n₁ : Node ω} (hrt : n₁.rt = n.rt) :
    Effect e n n₁.becomeLeaderLocked := by
  have hsame := Runtime.samePlaces_onTimer n.rt n.rt.electionTimer fun tm => tm.stop.1
  have hstop : n.rt.stopElectionTimer.timers.length = n.rt.timers.length := hsame.length
  have hrt' : n₁.becomeLeaderLocked.rt = n.rt.stopElectionTimer.newHeartbeatTimer.newContext := by
    unfold Node.becomeLeaderLocked
    rw [hrt]
  refine .up hl rfl ?_ ?_ ?_ ?_ ?_
  · rw [hrt']; exact hsame.election
  · rw [hrt']; exact congrArg some hstop
  · rw [hrt']
    show (n.rt.stopElectionTimer.timers ++ [Timer.armed]).length = _
    rw [List.length_append, List.length_singleton, hstop]
  · left
    rw [hrt']
    show (n.rt.stopElectionTimer.timers ++ [Timer.armed])[n.rt.timers.length]? = _
    rw [← hstop, List.getElem?_append_right le_rfl, Nat.sub_self]
    rfl
  · -- the election timer lies below the new one and is stopped
    have hidle : ¬ n.rt.stopElectionTimer.Alive e := by
      unfold Runtime.stopElectionTimer
      rw [he, Runtime.alive_onTimer_idle Runtime.stop_idle]
      exact fun h => h.2 rfl
    intro ha
    apply hidle
    rw [hrt'] at ha
    have hget : n.rt.stopElectionTimer.newHeartbeatTimer.newContext.timers[e]?
        = n.rt.stopElectionTimer.timers[e]? := List.getElem?_append_left (by omega)
    unfold Runtime.Alive at ha ⊢
    rw [hget] at ha
    exact ha

variable [Journal ω]

theorem becomeFollowerLocked_rt (n : Node ω) (t : Nat) : (n.becomeFollowerLocked t).rt
    = (if n.state = .leader then n.rt.stopLeading else n.rt).resetElectionTimerLocked := by
  unfold Node.becomeFollowerLocked
  by_cases ht : t > n.currentTerm
  · simp only [if_pos ht, Node.persist_node]
    split <;> rfl
  · simp only [if_neg ht]
    split <;> rfl

theorem effect_becomeFollowerLocked (he : n.rt.electionTimer = some e)
    (hlt : e < n.rt.timers.length) (t : Nat) :
    Effect e n (n.becomeFollowerLocked t) := by
  have hrt := becomeFollowerLocked_rt n t
  have hs : (n.becomeFollowerLocked t).state ≠ .leader := by simp
  by_cases hl : n.state = .leader
  · rw [if_pos hl] at hrt
    exact effect_stopLeading he hlt hs hrt
  · rw [if_neg hl] at hrt
    refine .down hs ?_ ?_ (fun h => absurd h hl)
    · rw [hrt]; exact Runtime.samePlaces_resetElectionTimerLocked he
    · rw [hrt, Runtime.alive_resetElectionTimerLocked he hlt]; exact Or.inr rfl

theorem effect_seeTerm (he : n.rt.electionTimer = some e) (hlt : e < n.rt.timers.length)
    (t : Nat) :
    Effect e n (n.seeTerm t) ∧ ((n.seeTerm t).state ≠ .leader ∨ n.seeTerm t = n) := by
  unfold Node.seeTerm
  split
  · exact ⟨effect_becomeFollowerLocked he hlt t, Or.inl (by simp)⟩
  · exact ⟨effect_refl e n, Or.inr rfl⟩

theorem effect_handleRequestVote (he : n.rt.electionTimer = some e)
    (hlt : e < n.rt.timers.length) (args : RequestVoteArgs) :
    Effect e n (n.handleRequestVote args).1 := by
  obtain ⟨hsee, hnl⟩ := effect_seeTerm he hlt args.term
  rcases n.handleRequestVote_cases args with ⟨_, h, _⟩ | ⟨_, _, _, h⟩
  · rw [h]; exact hsee
  · rw [h, Node.persist_node]
    exact hsee.reset he hlt hnl rfl rfl

theorem effect_handleAppendEntries (he : n.rt.electionTimer = some e)
    (hlt : e < n.rt.timers.length) (args : AppendEntriesArgs) :
    Effect e n (n.handleAppendEntries args).1 := by
  unfold Node.handleAppendEntries
  split
  · exact effect_refl e n
  · -- the rest of the section touches no timer
    obtain ⟨log, c, d, hc⟩ := (n.acceptLeader args).checkAndAppend_eq args
    have haccept : Effect e n (n.acceptLeader args) := by
      rcases n.acceptLeader_cases args with h | h
      · rw [h]; exact effect_stopLeading he hlt (by simp) rfl
      · obtain ⟨hsee, hnl⟩ := effect_seeTerm he hlt args.term
        rw [h]; exact hsee.reset he hlt hnl rfl rfl
    rw [hc]
    exact haccept.congr rfl rfl

theorem effect_handleAppendReply (he : n.rt.electionTimer = some e)
    (hlt : e < n.rt.timers.length) (t : Nat) (p : NodeID)
    (es : List LogEntry) (r : AppendEntriesReply) : Effect e n (n.handleAppendReply t p es r) := by
  rcases n.handleAppendReply_cases t p es r with ⟨_, _, h⟩ | ⟨ni, mi, c, _, _, h⟩
  · rw [h]; exact effect_becomeFollowerLocked he hlt r.term
  · rw [h]; exact .keep Iff.rfl (Runtime.SamePlaces.refl _) fun _ h => h

theorem effect_handleVoteReply (he : n.rt.electionTimer = some e)
    (hlt : e < n.rt.timers.length) (t : Nat) (p : NodeID)
    (r : RequestVoteReply) : Effect e n (n.handleVoteReply t p r) := by
  have hv := n.voteReplied t p r
  generalize n.handleVoteReply t p r = n' at hv ⊢
  cases hv with
  | idle _ => exact effect_refl e n
  | stepDown _ _ _ => exact effect_becomeFollowerLocked he hlt r.term
  | counted _ _ _ _ _ _ => exact .keep Iff.rfl (Runtime.SamePlaces.refl _) fun _ h => h
  | elected _ hc _ _ _ _ => exact effect_becomeLeaderLocked (by simp [hc]) he hlt rfl

theorem effect_submitCommand (e : Nat) (n : Node ω) (command : Command) :
    Effect e n (n.submitCommand command).1 := by
  rcases n.submitCommand_cases command with ⟨_, h⟩ | ⟨_, d, h⟩
  · rw [h]; exact effect_refl e n
  · rw [h]; exact .keep Iff.rfl (Runtime.SamePlaces.refl _) fun _ h => h

end Effects

/-! ## The loop -/

/-- If the loop is parked on a timer, there is, or will be, a tick to receive. -/
def Looping.Waking (s : Looping ω) : Prop := ∀ t, s.loop = .parked t → s.node.rt.Alive t

/-- The step did not make or unmake a leader while the loop was parked. -/
def Looping.Steady (s s' : Looping ω) : Prop :=
  ∀ t, s.loop = .parked t → (s'.node.state = .leader ↔ s.node.state = .leader)

/-- What holds of the timers, whatever the loop waits on. -/
structure TimerInv (e : Nat) (s : Looping ω) : Prop where
  election : s.node.rt.electionTimer = some e
  election_lt : e < s.node.rt.timers.length
  heartbeat : ∀ h, s.node.rt.heartbeatTimer = some h → h < s.node.rt.timers.length ∧ h ≠ e
  /-- The heartbeat timer of a leader runs, or the loop is about to restart it. -/
  leading : s.node.state = .leader → ∃ h, s.node.rt.heartbeatTimer = some h ∧
    (s.node.rt.Alive h ∨ s.loop = .woken ∨ s.loop = .beating ∨ s.loop = .rearming)
  /-- The election timer of anyone else runs, or the loop is about to start an election. -/
  following : s.node.state ≠ .leader →
    s.node.rt.Alive e ∨ s.loop = .woken ∨ s.loop = .electing

/-- What holds as long as every step is steady. -/
structure LoopInv (e : Nat) (s : Looping ω) : Prop extends TimerInv e s where
  /-- The loop is parked on the timer of the node's role. -/
  parked : ∀ t, s.loop = .parked t →
    (s.node.state = .leader ∧ s.node.rt.heartbeatTimer = some t) ∨
      (s.node.state ≠ .leader ∧ t = e)

theorem LoopInv.waking {e : Nat} {s : Looping ω} (h : LoopInv e s) : s.Waking := by
  intro t ht
  rcases h.parked t ht with ⟨hl, hh⟩ | ⟨hl, rfl⟩
  · obtain ⟨h', hh', ha⟩ := h.leading hl
    rw [hh] at hh'
    obtain rfl := Option.some.inj hh'
    rcases ha with ha | ha | ha | ha
    · exact ha
    all_goals rw [ht] at ha; exact absurd ha (by simp)
  · rcases h.following hl with ha | ha | ha
    · exact ha
    all_goals rw [ht] at ha; exact absurd ha (by simp)

/-- Handlers leave the timers as the role wants them. -/
theorem timerInv_effect {e : Nat} {s : Looping ω} {n' : Node ω} (h : TimerInv e s)
    (heff : Effect e s.node n') : TimerInv e { s with node := n' } := by
  obtain ⟨hel, hlt, hhb⟩ := heff.places h.election h.election_lt h.heartbeat
  cases heff with
  | keep hst hsame halive =>
      refine ⟨hel, hlt, hhb, ?_, ?_⟩
      · intro hl
        obtain ⟨t, ht, ha⟩ := h.leading (hst.mp hl)
        exact ⟨t, hsame.heartbeat.trans ht, ha.imp_left (halive t)⟩
      · intro hl
        exact (h.following fun h' => hl (hst.mpr h')).imp_left (halive e)
  | down hst _ halive _ =>
      exact ⟨hel, hlt, hhb, fun h' => absurd h' hst, fun _ => Or.inl halive⟩
  | up _ hl _ hfresh _ halive _ =>
      exact ⟨hel, hlt, hhb, fun _ => ⟨_, hfresh, Or.inl halive⟩, fun h' => absurd hl h'⟩

/-- A handler is steady and keeps the invariant, or it stops the very timer the loop waits on. -/
theorem loopInv_effect {e : Nat} {s : Looping ω} {n' : Node ω} (h : LoopInv e s)
    (heff : Effect e s.node n') :
    (s.Steady { s with node := n' } ∧ LoopInv e { s with node := n' }) ∨
      (¬ s.Steady { s with node := n' } ∧ ¬ Looping.Waking { s with node := n' }) := by
  have htimer := timerInv_effect h.toTimerInv heff
  cases heff with
  | keep hst hsame halive =>
      left
      refine ⟨fun _ _ => hst, htimer, ?_⟩
      intro t ht
      rcases h.parked t ht with ⟨hl, hh⟩ | ⟨hl, hte⟩
      · exact Or.inl ⟨hst.mpr hl, hsame.heartbeat.trans hh⟩
      · exact Or.inr ⟨fun h' => hl (hst.mp h'), hte⟩
  | down hst hsame halive hstop =>
      by_cases hp : s.node.state = .leader ∧ ∃ t, s.loop = .parked t
      · -- the loop waits on the heartbeat timer that stepping down stops
        obtain ⟨hl, t, ht⟩ := hp
        right
        refine ⟨fun hsteady => hst ((hsteady t ht).mpr hl), ?_⟩
        intro hw
        rcases h.parked t ht with ⟨_, hh⟩ | ⟨hl', _⟩
        · exact hstop hl t hh (h.heartbeat t hh).2 (hw t ht)
        · exact hl' hl
      · left
        have hnl : ∀ t, s.loop = .parked t → s.node.state ≠ .leader := fun t ht hl => hp ⟨hl, t, ht⟩
        refine ⟨fun t ht => ⟨fun h' => absurd h' hst, fun h' => absurd h' (hnl t ht)⟩, htimer, ?_⟩
        intro t ht
        rcases h.parked t ht with ⟨hl, _⟩ | ⟨_, hte⟩
        · exact absurd hl (hnl t ht)
        · exact Or.inr ⟨hst, hte⟩
  | up hnl hl _ _ _ _ hidle =>
      by_cases hp : ∃ t, s.loop = .parked t
      · -- the loop waits on the election timer that the new leader has just stopped
        obtain ⟨t, ht⟩ := hp
        right
        refine ⟨fun hsteady => hnl ((hsteady t ht).mp hl), ?_⟩
        intro hw
        rcases h.parked t ht with ⟨hl', _⟩ | ⟨_, rfl⟩
        · exact hnl hl'
        · exact hidle (hw t ht)
      · left
        exact ⟨fun t ht => absurd ⟨t, ht⟩ hp, htimer, fun t ht => absurd ⟨t, ht⟩ hp⟩

/-! ### The loop's own sections -/

/-- The timer that the loop parks on is that of the role, and it runs. -/
theorem TimerInv.chosen {e t : Nat} {s : Looping ω} (h : TimerInv e s) (hl : s.loop = .choosing)
    (ht : Looping.timerCh s.node = some t) : s.node.rt.Alive t ∧
      ((s.node.state = .leader ∧ s.node.rt.heartbeatTimer = some t) ∨
        (s.node.state ≠ .leader ∧ t = e)) := by
  by_cases hs : s.node.state = .leader
  · obtain ⟨t', ht', ha⟩ := h.leading hs
    unfold Looping.timerCh at ht
    rw [hs] at ht
    dsimp only at ht
    rw [ht'] at ht
    obtain rfl := Option.some.inj ht
    rcases ha with ha | ha | ha | ha
    · exact ⟨ha, Or.inl ⟨hs, ht'⟩⟩
    all_goals rw [hl] at ha; exact absurd ha (by simp)
  · have hte : some t = some e := by
      rw [← ht, ← h.election]
      unfold Looping.timerCh
      cases hst : s.node.state with
      | follower => rfl
      | candidate => rfl
      | leader => exact absurd hst hs
    obtain rfl := Option.some.inj hte
    rcases h.following hs with ha | ha | ha
    · exact ⟨ha, Or.inr ⟨hs, rfl⟩⟩
    all_goals rw [hl] at ha; exact absurd ha (by simp)

theorem timerInv_choose {e t : Nat} {s : Looping ω} (h : TimerInv e s) (hl : s.loop = .choosing)
    (ht : Looping.timerCh s.node = some t) : TimerInv e { s with loop := .parked t } := by
  obtain ⟨halive, hrole⟩ := h.chosen hl ht
  refine ⟨h.election, h.election_lt, h.heartbeat, ?_, ?_⟩
  · intro hs
    rcases hrole with ⟨_, hh⟩ | ⟨hs', _⟩
    · exact ⟨t, hh, Or.inl halive⟩
    · exact absurd hs hs'
  · intro hs
    rcases hrole with ⟨hs', _⟩ | ⟨_, rfl⟩
    · exact absurd hs' hs
    · exact Or.inl halive

theorem loopInv_choose {e t : Nat} {s : Looping ω} (h : LoopInv e s) (hl : s.loop = .choosing)
    (ht : Looping.timerCh s.node = some t) : LoopInv e { s with loop := .parked t } := by
  refine ⟨timerInv_choose h.toTimerInv hl ht, ?_⟩
  intro t' ht'
  obtain rfl : t = t' := by injection ht'
  exact (h.chosen hl ht).2

theorem timerInv_receive {e t : Nat} {s : Looping ω} (h : TimerInv e s) :
    TimerInv e { node := { s.node with rt := s.node.rt.onTimer (some t) Timer.drain },
                 loop := .woken } := by
  have hsame := Runtime.samePlaces_onTimer s.node.rt (some t) Timer.drain
  refine ⟨hsame.election.trans h.election, ?_, ?_, ?_, ?_⟩
  · dsimp only; rw [hsame.length]; exact h.election_lt
  · dsimp only; rw [hsame.heartbeat, hsame.length]; exact h.heartbeat
  · intro hs
    obtain ⟨t', ht', _⟩ := h.leading hs
    exact ⟨t', hsame.heartbeat.trans ht', Or.inr (Or.inl rfl)⟩
  · intro _; exact Or.inr (Or.inl rfl)

theorem timerInv_readState {e : Nat} {s : Looping ω} (h : TimerInv e s) :
    TimerInv e { s with loop := if s.node.state = .leader then .beating else .electing } := by
  refine ⟨h.election, h.election_lt, h.heartbeat, ?_, ?_⟩
  · intro hs
    obtain ⟨t, ht, _⟩ := h.leading hs
    exact ⟨t, ht, Or.inr (Or.inr (Or.inl (if_pos hs)))⟩
  · intro hs; exact Or.inr (Or.inr (if_neg hs))

theorem timerInv_sendHeartbeats {e : Nat} {s : Looping ω} (h : TimerInv e s)
    (hl : s.loop = .beating) : TimerInv e { s with loop := .rearming } := by
  refine ⟨h.election, h.election_lt, h.heartbeat, ?_, ?_⟩
  · intro hs
    obtain ⟨t, ht, _⟩ := h.leading hs
    exact ⟨t, ht, Or.inr (Or.inr (Or.inr rfl))⟩
  · intro hs
    rcases h.following hs with ha | ha | ha
    · exact Or.inl ha
    all_goals rw [hl] at ha; exact absurd ha (by simp)

theorem timerInv_rearm {e : Nat} {s : Looping ω} (h : TimerInv e s) (hl : s.loop = .rearming) :
    TimerInv e
      { node := { s.node with rt := s.node.rt.resetHeartbeatTimer }, loop := .choosing } := by
  have hsame := Runtime.samePlaces_onTimer s.node.rt s.node.rt.heartbeatTimer Timer.reset
  have halive : ∀ j, s.node.rt.resetHeartbeatTimer.Alive j ↔
      s.node.rt.Alive j ∨ s.node.rt.heartbeatTimer = some j := by
    intro j
    unfold Runtime.resetHeartbeatTimer
    cases hh : s.node.rt.heartbeatTimer with
    | none => simp [Runtime.onTimer]
    | some t =>
        rw [Runtime.alive_onTimer_const (f := Timer.reset) (h.heartbeat t hh).1 fun _ => Or.inl rfl]
        simp [eq_comm]
  refine ⟨hsame.election.trans h.election, ?_, ?_, ?_, ?_⟩
  · show e < (s.node.rt.onTimer s.node.rt.heartbeatTimer Timer.reset).timers.length
    rw [hsame.length]; exact h.election_lt
  · intro t ht
    have := h.heartbeat t (hsame.heartbeat.symm.trans ht)
    show t < (s.node.rt.onTimer s.node.rt.heartbeatTimer Timer.reset).timers.length ∧ _
    rw [hsame.length]; exact this
  · intro hs
    obtain ⟨t, ht, _⟩ := h.leading hs
    exact ⟨t, hsame.heartbeat.trans ht, Or.inl ((halive t).mpr (Or.inr ht))⟩
  · intro hs
    rcases h.following hs with ha | ha | ha
    · exact Or.inl ((halive e).mpr (Or.inl ha))
    all_goals rw [hl] at ha; exact absurd ha (by simp)

theorem effect_fire {e t : Nat} {n : Node ω} (ht : n.rt.timers[t]? = some .armed) :
    Effect e n { n with rt := n.rt.onTimer (some t) fun _ => .fired } := by
  refine .keep Iff.rfl (Runtime.samePlaces_onTimer n.rt (some t) fun _ => .fired) ?_
  intro j hj
  have hlt := (List.getElem?_eq_some_iff.mp ht).1
  exact (Runtime.alive_onTimer_const hlt (fun _ => Or.inr rfl) j).mpr (Or.inl hj)

variable [Journal ω]

theorem startElection_rt (n : Node ω) :
    n.startElection.1.rt = n.rt.resetElectionTimerLocked := by
  unfold Node.startElection
  dsimp only
  rw [Node.persist_node, Node.persist_node]

theorem timerInv_startElection {e : Nat} {s : Looping ω} (h : TimerInv e s) :
    TimerInv e { node := s.node.startElection.1, loop := .choosing } := by
  have hsame := Runtime.samePlaces_resetElectionTimerLocked h.election
  have hnl : s.node.startElection.1.state ≠ .leader := by
    rw [Node.startElection_state]; simp
  refine ⟨?_, ?_, ?_, fun hs => absurd hs hnl, ?_⟩
  · dsimp only; rw [startElection_rt]; exact hsame.election.trans h.election
  · dsimp only; rw [startElection_rt, hsame.length]; exact h.election_lt
  · dsimp only; rw [startElection_rt, hsame.heartbeat, hsame.length]; exact h.heartbeat
  · intro _
    left
    dsimp only
    rw [startElection_rt, Runtime.alive_resetElectionTimerLocked h.election h.election_lt]
    exact Or.inr rfl

/-- **The timers are as the role wants them, whatever happens.** -/
theorem timerInv_step {e : Nat} {s s' : Looping ω} (h : TimerInv e s) {ev : LoopEvent}
    (hs : s.step ev = some s') : TimerInv e s' := by
  have he := h.election
  have hlt := h.election_lt
  cases Looping.steps_of_step hs with
  | park t hl ht => exact timerInv_choose h hl ht
  | sleep _ _ => exact h
  | receive t _ _ => exact timerInv_receive h
  | readState _ => exact timerInv_readState h
  | startElection _ => exact timerInv_startElection h
  | sendHeartbeats hl => exact timerInv_sendHeartbeats h hl
  | rearm hl => exact timerInv_rearm h hl
  | fire t ht => exact timerInv_effect h (effect_fire ht)
  | voteReply term p reply => exact timerInv_effect h (effect_handleVoteReply he hlt term p reply)
  | appendReply term peer entries reply =>
      exact timerInv_effect h (effect_handleAppendReply he hlt term peer entries reply)
  | requestVote args => exact timerInv_effect h (effect_handleRequestVote he hlt args)
  | appendEntries args => exact timerInv_effect h (effect_handleAppendEntries he hlt args)
  | submitCommand command => exact timerInv_effect h (effect_submitCommand e s.node command)

omit [Journal ω] in
/-- Nothing is asked of a loop that is not parked. -/
theorem TimerInv.unparked {e : Nat} {s : Looping ω} (h : TimerInv e s)
    (hl : ∀ t, s.loop ≠ .parked t) : LoopInv e s :=
  ⟨h, fun t ht => absurd ht (hl t)⟩

/-- **A step is steady and keeps the invariant, or the loop has lost its wake-up.** -/
theorem loopInv_step {e : Nat} {s s' : Looping ω} (h : LoopInv e s) {ev : LoopEvent}
    (hs : s.step ev = some s') : (s.Steady s' ∧ LoopInv e s') ∨ (¬ s.Steady s' ∧ ¬ s'.Waking) := by
  have he := h.election
  have hlt := h.election_lt
  have htimer := timerInv_step h.toTimerInv hs
  cases Looping.steps_of_step hs with
  | park t hl ht => exact Or.inl ⟨fun _ _ => Iff.rfl, loopInv_choose h hl ht⟩
  | sleep _ _ => exact Or.inl ⟨fun _ _ => Iff.rfl, h⟩
  | receive t _ _ => exact Or.inl ⟨fun _ _ => Iff.rfl, htimer.unparked (by simp)⟩
  | readState _ =>
      refine Or.inl ⟨fun _ _ => Iff.rfl, htimer.unparked ?_⟩
      intro t
      dsimp only
      split <;> simp
  | startElection hl =>
      exact Or.inl ⟨fun t ht => absurd (hl.symm.trans ht) (by simp), htimer.unparked (by simp)⟩
  | sendHeartbeats hl => exact Or.inl ⟨fun _ _ => Iff.rfl, htimer.unparked (by simp)⟩
  | rearm hl => exact Or.inl ⟨fun _ _ => Iff.rfl, htimer.unparked (by simp)⟩
  | fire t ht => exact loopInv_effect h (effect_fire ht)
  | voteReply term p reply =>
      exact loopInv_effect h (effect_handleVoteReply he hlt term p reply)
  | appendReply term peer entries reply =>
      exact loopInv_effect h (effect_handleAppendReply he hlt term peer entries reply)
  | requestVote args => exact loopInv_effect h (effect_handleRequestVote he hlt args)
  | appendEntries args => exact loopInv_effect h (effect_handleAppendEntries he hlt args)
  | submitCommand command => exact loopInv_effect h (effect_submitCommand e s.node command)

omit [Journal ω] in
theorem loopInv_init (id : NodeID) (peers : List NodeID) (wal : Option ω) (r : Replayed) :
    LoopInv 0 (Looping.init id peers wal r) := by
  have hn : (Looping.init id peers wal r).node.rt = ⟨some 0, none, none, [.armed], []⟩ ∧
      (Looping.init id peers wal r).node.state = .follower := by
    obtain ⟨log, he⟩ := (Node.newNode id peers wal).replay_eq r
    unfold Looping.init
    rw [he]
    exact ⟨rfl, rfl⟩
  refine ⟨⟨by rw [hn.1], by rw [hn.1]; simp, ?_, ?_, ?_⟩,
    fun t ht => absurd ht (by simp [Looping.init])⟩
  · intro t ht; rw [hn.1] at ht; exact absurd ht (by simp)
  · intro hs; rw [hn.2] at hs; exact absurd hs (by simp)
  · intro _; left; rw [hn.1]; left; rfl

theorem exec_wakeups_iff {e : Nat} : ∀ {evs : List LoopEvent} {s s' : Looping ω}, LoopInv e s →
    Execution.exec Looping.step s evs = some s' →
    (Execution.Always Looping.step (fun _ _ s' => s'.Waking) s evs ↔
      Execution.Always Looping.step (fun s _ s' => s.Steady s') s evs) := by
  intro evs
  induction evs with
  | nil => intro s s' _ _; exact Iff.rfl
  | cons ev evs ih =>
      intro s s' h hx
      obtain ⟨s₁, h₁, hx⟩ := Execution.exec_cons.mp hx
      rw [Execution.always_cons h₁, Execution.always_cons h₁]
      rcases loopInv_step h h₁ with ⟨hsteady, hinv⟩ | ⟨hsteady, hlost⟩
      · rw [ih hinv hx]
        exact ⟨fun h' => ⟨hsteady, h'.2⟩, fun h' => ⟨hinv.waking, h'.2⟩⟩
      · exact ⟨fun h' => absurd h'.1 hlost, fun h' => absurd h'.1 hsteady⟩

/--
**Lost wake-ups.** Along a run of a started node, the loop is never parked on a timer
that will not tick exactly if no step makes the node leader, or ends its leadership,
while the loop is parked.
-/
theorem wakeups_iff_steady {id : NodeID} {peers : List NodeID} {wal : Option ω} {r : Replayed}
    {evs : List LoopEvent} {s : Looping ω}
    (hx : Execution.exec Looping.step (Looping.init id peers wal r) evs = some s) :
    Execution.Always Looping.step (fun _ _ s' => s'.Waking) (Looping.init id peers wal r) evs ↔
      Execution.Always Looping.step (fun s _ s' => s.Steady s') (Looping.init id peers wal r) evs :=
  exec_wakeups_iff (loopInv_init id peers wal r) hx

/-- What `a` answers to the first vote request of `b`. -/
def firstVote : RequestVoteReply :=
  ((Node.newNode "a" ["b", "c"] (none : Option OneFile)).start.handleRequestVote ⟨1, "b", 0, 0⟩).2

/-- Node `b` of three, as it is started for the first time. -/
def startedB : Looping OneFile := Looping.init "b" ["a", "c"] none Replayed.zero

/-- The loop of `b` up to its first election. -/
def electionEvents : List LoopEvent := [.choose, .fire 0, .receive, .readState, .startElection]

/-- The vote arrives before the loop looks at the role again. -/
def heartbeatEvents : List LoopEvent :=
  electionEvents ++ [.voteReply 1 "a" firstVote, .choose, .fire 1, .receive, .readState,
    .sendHeartbeats, .rearm, .choose]

theorem wakeups_abc : ∃ s, Execution.exec Looping.step startedB heartbeatEvents = some s ∧
    s.node.state = .leader ∧ s.loop = .parked 1 ∧ s.node.rt.Alive 1 ∧
    (Execution.Always Looping.step (fun _ _ s' => s'.Waking) startedB heartbeatEvents ↔
      Execution.Always Looping.step (fun s _ s' => s.Steady s') startedB heartbeatEvents) := by
  obtain ⟨s, hx, h⟩ : ∃ s ∈ Execution.exec Looping.step startedB heartbeatEvents,
      s.node.state = .leader ∧ s.loop = .parked 1 ∧ s.node.rt.Alive 1 := by
    decide +kernel
  exact ⟨s, hx, h.1, h.2.1, h.2.2, wakeups_iff_steady hx⟩

/--
The loop parks first, in both directions: `b` is leader and its loop waits for an
election timeout; `b` follows and its loop waits for the next heartbeat.
-/
theorem lost_wakeups_abc :
    (∃ s, Execution.exec Looping.step startedB
        (electionEvents ++ [.choose, .voteReply 1 "a" firstVote]) = some s ∧
      s.node.state = .leader ∧ s.loop = .parked 0 ∧ s.node.rt.timers[0]? = some .idle) ∧
    (∃ s, Execution.exec Looping.step startedB
        (electionEvents ++ [.voteReply 1 "a" firstVote, .choose, .requestVote ⟨2, "c", 0, 0⟩])
          = some s ∧
      s.node.state = .follower ∧ s.loop = .parked 1 ∧ s.node.rt.timers[1]? = some .idle) := by
  constructor
  · obtain ⟨s, hx, h⟩ : ∃ s ∈ Execution.exec Looping.step startedB
        (electionEvents ++ [.choose, .voteReply 1 "a" firstVote]),
        s.node.state = .leader ∧ s.loop = .parked 0 ∧
        s.node.rt.timers[0]? = some Timer.idle := by
      decide +kernel
    exact ⟨s, hx, h⟩
  · obtain ⟨s, hx, h⟩ : ∃ s ∈ Execution.exec Looping.step startedB
        (electionEvents ++ [.voteReply 1 "a" firstVote, .choose, .requestVote ⟨2, "c", 0, 0⟩]),
        s.node.state = .follower ∧ s.loop = .parked 1 ∧
        s.node.rt.timers[1]? = some Timer.idle := by
      decide +kernel
    exact ⟨s, hx, h⟩

end GammaFlow.Raft
