import GammaFlow.Raft.EventLoop
import GammaFlow.Raft.Numbers
import GammaFlow.Raft.Timers

/-!
# The cluster and its event loops

The cluster lets any member call an election at any time, and any leader send heartbeats.
In the source only `Node.run` does either, when a timer has expired. `Driven` is the cluster
together with the loop of each node: the two sections happen when the loop has come to them,
and timers expire.

To a node and its loop every step is one of the loop's model (`looping_step`), so what was
proved there holds here. To the cluster the loops and timers only decide when elections are
called and heartbeats sent: a driven cluster is always one that the cluster's own model
reaches, with other timers (`exists_tracks`).
-/

namespace GammaFlow.Raft

open GammaFlow.Storage

variable {ω : Type}

structure Driven (ω : Type) where
  cluster : Cluster ω
  /-- Where `run` of each node is. -/
  loops : NodeID → Loop

/-- The sections of `run` that the cluster knows nothing of, and the expiry of a timer. -/
inductive Tick where
  | choose
  | receive
  | readState
  | rearm
  | fire (t : Nat)
  deriving DecidableEq, Repr

def Tick.event : Tick → LoopEvent
  | .choose => .choose
  | .receive => .receive
  | .readState => .readState
  | .rearm => .rearm
  | .fire t => .fire t

inductive DrivenEvent where
  | event (ev : Event)
  | tick (i : NodeID) (t : Tick)
  deriving DecidableEq, Repr

/-- The event is not a section of `run`. -/
def Event.Undriven : Event → Prop
  | .startElection _ => False
  | .sendHeartbeats _ => False
  | _ => True

namespace Driven

def init (cfg : Config ω) : Driven ω := ⟨Cluster.init cfg, fun _ => .choosing⟩

/-- A node with its loop. -/
def looping (s : Driven ω) (i : NodeID) : Looping ω := ⟨s.cluster.nodes i, s.loops i⟩

/-- The loop of `i` is not parked on a timer that will not tick. -/
def Awake (s : Driven ω) (i : NodeID) : Prop := (s.looping i).Waking

def setLoop (s : Driven ω) (i : NodeID) (l : Loop) : Driven ω :=
  { s with loops := Function.update s.loops i l }

variable [Journal ω] (cfg : Config ω)

def step (s : Driven ω) : DrivenEvent → Option (Driven ω)
  | .event ev =>
      match ev with
      | .startElection i =>
          if s.loops i = .electing then
            (s.cluster.act cfg (.startElection i)).map fun w =>
              { s.setLoop i .choosing with cluster := w }
          else none
      | .sendHeartbeats i =>
          if s.loops i = .beating then
            -- who leads no longer sends nothing, and goes on
            some { s.setLoop i .rearming with
              cluster := (s.cluster.act cfg (.sendHeartbeats i)).getD s.cluster }
          else none
      | ev => (s.cluster.act cfg ev).map fun w => { s with cluster := w }
  | .tick i t =>
      if i ∈ cfg.ids then
        ((s.looping i).step t.event).map fun l =>
          { s.setLoop i l.loop with cluster := s.cluster.setNode i l.node }
      else none

def exec : Driven ω → List DrivenEvent → Option (Driven ω) := Execution.exec (step cfg)

def Run : Driven ω → Driven ω → Prop := Execution.Run (step cfg)

def Reachable (s : Driven ω) : Prop := Run cfg (init cfg) s

end Driven

variable [Journal ω] {cfg : Config ω} {s s' : Driven ω} {w w' : Cluster ω}

/-! ## What a step can do -/

/-- A step, with what had to hold for it. -/
inductive Drives (cfg : Config ω) (s : Driven ω) : DrivenEvent → Driven ω → Prop
  | undriven (ev : Event) (w : Cluster ω) : ev.Undriven → s.cluster.act cfg ev = some w →
      Drives cfg s (.event ev) { s with cluster := w }
  | startElection (i : NodeID) (w : Cluster ω) : s.loops i = .electing →
      s.cluster.act cfg (.startElection i) = some w →
      Drives cfg s (.event (.startElection i)) { s.setLoop i .choosing with cluster := w }
  | sendHeartbeats (i : NodeID) (w : Cluster ω) : s.loops i = .beating →
      s.cluster.act cfg (.sendHeartbeats i) = some w →
      Drives cfg s (.event (.sendHeartbeats i)) { s.setLoop i .rearming with cluster := w }
  | notLeading (i : NodeID) : s.loops i = .beating →
      s.cluster.act cfg (.sendHeartbeats i) = none →
      Drives cfg s (.event (.sendHeartbeats i)) (s.setLoop i .rearming)
  | tick (i : NodeID) (t : Tick) (l : Looping ω) : i ∈ cfg.ids →
      (s.looping i).step t.event = some l →
      Drives cfg s (.tick i t) { s.setLoop i l.loop with cluster := s.cluster.setNode i l.node }

theorem step_undriven {ev : Event} (h : ev.Undriven) :
    s.step cfg (.event ev) = (s.cluster.act cfg ev).map fun w => { s with cluster := w } := by
  cases ev with
  | startElection _ => exact absurd h id
  | sendHeartbeats _ => exact absurd h id
  | _ => rfl

theorem drives_of_step {ev : DrivenEvent} (hs : s.step cfg ev = some s') : Drives cfg s ev s' := by
  have hundriven : ∀ {ev : Event}, ev.Undriven → s.step cfg (.event ev) = some s' →
      Drives cfg s (.event ev) s' := by
    intro ev hev hs
    rw [step_undriven hev, Option.map_eq_some_iff] at hs
    obtain ⟨w, hw, rfl⟩ := hs
    exact .undriven ev w hev hw
  rcases ev with ev | ⟨i, t⟩
  · cases ev with
    | startElection i =>
        rw [Driven.step] at hs
        split at hs
        · rename_i hl
          obtain ⟨w, hw, rfl⟩ := Option.map_eq_some_iff.mp hs
          exact .startElection i w hl hw
        · exact absurd hs (by simp)
    | sendHeartbeats i =>
        rw [Driven.step] at hs
        split at hs
        · rename_i hl
          obtain rfl := Option.some.inj hs
          cases hw : s.cluster.act cfg (.sendHeartbeats i) with
          | none => exact .notLeading i hl hw
          | some w => exact .sendHeartbeats i w hl hw
        · exact absurd hs (by simp)
    | _ => exact hundriven trivial hs
  · rw [Driven.step] at hs
    split at hs
    · rename_i hi
      obtain ⟨l, hl, rfl⟩ := Option.map_eq_some_iff.mp hs
      exact .tick i t l hi hl
    · exact absurd hs (by simp)

omit [Journal ω] in
theorem looping_setLoop (s : Driven ω) (i : NodeID) (l : Loop) (w : Cluster ω) :
    ({ s.setLoop i l with cluster := w } : Driven ω).looping i = ⟨w.nodes i, l⟩ := by
  unfold Driven.looping Driven.setLoop
  dsimp only
  rw [Function.update_self]

omit [Journal ω] in
theorem looping_setLoop_ne (s : Driven ω) {i j : NodeID} (h : j ≠ i) (l : Loop) (w : Cluster ω) :
    ({ s.setLoop i l with cluster := w } : Driven ω).looping j = ⟨w.nodes j, s.loops j⟩ := by
  unfold Driven.looping Driven.setLoop
  dsimp only
  rw [Function.update_of_ne h]

/-! ## Nodes and their loops -/

/-- What a step of the cluster is to a node and its loop. -/
inductive LoopStep (l l' : Looping ω) : Prop
  | none : l' = l → LoopStep l l'
  | step (ev : LoopEvent) : l.step ev = some l' → LoopStep l l'
  /-- The end of a round of the apply loop. -/
  | applied (c : Nat) : l' = { l with node := { l.node with lastApplied := c } } → LoopStep l l'

theorem loopStep_of_nodeStep {ev : Event} {i : NodeID} {n : Node ω} (hev : ev.Undriven)
    (hst : NodeStep cfg s.cluster i ev n) : LoopStep (s.looping i) ⟨n, s.loops i⟩ := by
  cases hst with
  | startElection _ => exact absurd hev id
  | requestVote k c _ _ => exact .step (.requestVote c.args) rfl
  | voteReply k c r _ _ => exact .step (.voteReply c.args.term c.peer r) rfl
  | appendEntries k c _ _ => exact .step (.appendEntries c.args) rfl
  | appendReply k c r _ _ => exact .step (.appendReply c.args.term c.peer c.args.entries r) rfl
  | submitCommand command _ => exact .step (.submitCommand command) rfl
  | finishApply c _ => exact .applied c rfl

/-- **A step of the cluster is, to each node, one of its loop or of a handler.** -/
theorem looping_step {ev : DrivenEvent} (hs : s.step cfg ev = some s') (j : NodeID) :
    LoopStep (s.looping j) (s'.looping j) := by
  cases drives_of_step hs with
  | undriven ev w hev hw =>
      rcases act_nodes hw j with hn | hst
      · exact .none (by rw [Driven.looping, Driven.looping, hn])
      · exact loopStep_of_nodeStep hev hst
  | startElection i w hl hw =>
      have hn : w.nodes = (s.cluster.setNode i (s.cluster.nodes i).startElection.1).nodes := by
        cases acts_of_act hw with
        | startElection _ _ => rfl
      by_cases hj : j = i
      · subst hj
        rw [looping_setLoop, hn, setNode_self]
        exact .step .startElection (by rw [Looping.step, Driven.looping, hl])
      · rw [looping_setLoop_ne s hj, hn, setNode_ne _ _ _ hj]
        exact .none rfl
  | sendHeartbeats i w hl hw =>
      have hn : w.nodes = s.cluster.nodes := by
        cases acts_of_act hw with
        | sendHeartbeats _ _ _ => rfl
      by_cases hj : j = i
      · subst hj
        rw [looping_setLoop, hn]
        exact .step .sendHeartbeats (by rw [Looping.step, Driven.looping, hl])
      · rw [looping_setLoop_ne s hj, hn]
        exact .none rfl
  | notLeading i hl _ =>
      by_cases hj : j = i
      · subst hj
        rw [show (s.setLoop j .rearming).looping j = ⟨s.cluster.nodes j, .rearming⟩ from
          looping_setLoop s j _ s.cluster]
        exact .step .sendHeartbeats (by rw [Looping.step, Driven.looping, hl])
      · exact .none (looping_setLoop_ne s hj _ s.cluster)
  | tick i t l _ hl =>
      by_cases hj : j = i
      · subst hj
        rw [looping_setLoop, setNode_self]
        exact .step t.event hl
      · rw [looping_setLoop_ne s hj, setNode_ne _ _ _ hj]
        exact .none rfl

/-- The timers are as the roles want them, in every state of every run. -/
theorem timerInv_reachable (hs : Driven.Reachable cfg s) (i : NodeID) :
    TimerInv 0 (s.looping i) := by
  refine Execution.Run.invariant hs ?_ ?_
  · exact (loopInv_init i (cfg.peers i) (cfg.wal i) Replayed.zero).toTimerInv
  · intro s₁ ev s₂ _ h hstep
    cases looping_step hstep i with
    | none heq => rw [heq]; exact h
    | step ev hev => exact timerInv_step h hev
    | applied c heq =>
        rw [heq]
        exact ⟨h.election, h.election_lt, h.heartbeat, h.leading, h.following⟩

/-! ## The cluster under the loops -/

/-- The driven cluster is that of an undriven run, with other timers. -/
structure Tracks (cfg : Config ω) (s : Driven ω) (w : Cluster ω) : Prop where
  driven : Driven.Reachable cfg s
  undriven : Cluster.Reachable cfg w
  timers : ∃ rts, s.cluster = w.timed rts

omit [Journal ω] in
theorem timed_self (w : Cluster ω) : w.timed (fun i => (w.nodes i).rt) = w := rfl

theorem Tracks.act (h : Tracks cfg s w) {ev : Event} (hs : w.act cfg ev = some w') :
    ∃ rts, s.cluster.act cfg ev = some (w'.timed rts) := by
  obtain ⟨rts, hrts⟩ := h.timers
  rw [hrts]
  exact Cluster.act_timed hs rts

/-- What the driven cluster does, the other one can do. -/
theorem Tracks.act_inv (h : Tracks cfg s w) {ev : Event} {v : Cluster ω}
    (hs : s.cluster.act cfg ev = some v) :
    ∃ w' rts, w.act cfg ev = some w' ∧ v = w'.timed rts := by
  obtain ⟨rts, hrts⟩ := h.timers
  -- the same event, with the timers of `w` put back
  obtain ⟨rts', hact⟩ := Cluster.act_timed hs fun i => (w.nodes i).rt
  rw [hrts] at hact
  exact ⟨v.timed rts', fun i => (v.nodes i).rt, hact, rfl⟩

/-- A tick changes the timers of a node, and nothing else of it. -/
theorem tick_node {l l' : Looping ω} {t : Tick} (hs : l.step t.event = some l') :
    ∃ rt, l'.node = l.node.timed rt := by
  have hst := Looping.steps_of_step hs
  cases t with
  | choose => cases hst <;> exact ⟨_, rfl⟩
  | receive => cases hst; exact ⟨_, rfl⟩
  | readState => cases hst; exact ⟨_, rfl⟩
  | rearm => cases hst; exact ⟨_, rfl⟩
  | fire t => cases hst; exact ⟨_, rfl⟩

theorem tracks_tick (h : Tracks cfg s w) {i : NodeID} {t : Tick} {l : Looping ω}
    (hl : (s.looping i).step t.event = some l) :
    ∃ rts, s.cluster.setNode i l.node = w.timed rts := by
  obtain ⟨rts, hrts⟩ := h.timers
  obtain ⟨rt, hn⟩ := tick_node hl
  refine ⟨Function.update rts i rt, ?_⟩
  have hnode : l.node = (w.nodes i).timed rt := by
    rw [hn, Driven.looping, hrts]
    rfl
  have hself : w.setNode i (w.nodes i) = w := by
    unfold Cluster.setNode
    rw [Function.update_eq_self]
  rw [hnode, hrts, Cluster.timed_setNode, hself]

theorem tracks_step (h : Tracks cfg s w) {ev : DrivenEvent} (hs : s.step cfg ev = some s') :
    ∃ w', Tracks cfg s' w' := by
  have hdriven : Driven.Reachable cfg s' := h.driven.tail ⟨ev, hs⟩
  have hact : ∀ {ev : Event}, s.cluster.act cfg ev = some s'.cluster → ∃ w', Tracks cfg s' w' := by
    intro ev hev
    obtain ⟨w', rts, hw, hv⟩ := h.act_inv hev
    exact ⟨w', hdriven, h.undriven.tail ⟨ev, hw⟩, rts, hv⟩
  cases drives_of_step hs with
  | undriven ev v _ hv => exact hact hv
  | startElection i v _ hv => exact hact hv
  | sendHeartbeats i v _ hv => exact hact hv
  | notLeading i _ _ => exact ⟨w, hdriven, h.undriven, h.timers⟩
  | tick i t l _ hl => exact ⟨w, hdriven, h.undriven, tracks_tick h hl⟩

/-- **Loops and timers only choose among the runs of the cluster.** -/
theorem exists_tracks (hs : Driven.Reachable cfg s) : ∃ w, Tracks cfg s w := by
  refine Execution.Run.invariant (I := fun s => ∃ w, Tracks cfg s w) hs ?_ ?_
  · exact ⟨Cluster.init cfg, Relation.ReflTransGen.refl, Relation.ReflTransGen.refl, _,
      (timed_self (Cluster.init cfg)).symm⟩
  · rintro s₁ ev s₂ _ ⟨w, h⟩ hstep
    exact tracks_step h hstep

/-! ## Members among themselves -/

/-- An event of members of `Q` among themselves, whose requests are not too long to be received. -/
def Among (limit : Nat) (Q : List NodeID) (w : Cluster ω) : Event → Prop
  | .startElection i => i ∈ Q
  | .requestVote k => ∃ c ∈ w.voteCalls[k]?, c.caller ∈ Q ∧ c.peer ∈ Q ∧
      (sendRequestVote c.args).size ≤ limit
  | .voteReply k => ∃ c ∈ w.voteReplies[k]?, c.1.caller ∈ Q ∧ c.1.peer ∈ Q
  | .sendHeartbeats i => i ∈ Q
  | .readHeartbeat k => ∃ hb ∈ w.heartbeats[k]?, hb.caller ∈ Q ∧ hb.peer ∈ Q
  | .replicateLog i p => i ∈ Q ∧ p ∈ Q
  | .appendEntries k => ∃ c ∈ w.appendCalls[k]?, c.caller ∈ Q ∧ c.peer ∈ Q ∧
      (sendAppendEntries c.args).size ≤ limit
  | .appendReply k => ∃ c ∈ w.appendReplies[k]?, c.1.caller ∈ Q ∧ c.1.peer ∈ Q
  | .submitCommand i _ => i ∈ Q
  | .pollSubmit k => ∃ s ∈ w.submits[k]?, s.node ∈ Q
  | .timeoutSubmit k => ∃ s ∈ w.submits[k]?, s.node ∈ Q
  | .collectApply i => i ∈ Q
  | .sendApply i => i ∈ Q
  | .finishApply i => i ∈ Q

namespace Driven

/-- A step of members of `Q` among themselves. -/
def Among (limit : Nat) (Q : List NodeID) (s : Driven ω) : DrivenEvent → Prop
  | .event ev => Raft.Among limit Q s.cluster ev
  | .tick i _ => i ∈ Q

/-- A run of such steps. -/
def RunAmong (cfg : Config ω) (limit : Nat) (Q : List NodeID) : Driven ω → Driven ω → Prop :=
  Relation.ReflTransGen fun s s' => ∃ ev, Among limit Q s ev ∧ s.step cfg ev = some s'

variable {limit : Nat} {Q : List NodeID}

theorem RunAmong.run (h : RunAmong cfg limit Q s s') : Run cfg s s' := by
  refine Relation.ReflTransGen.mono ?_ _ _ h
  rintro s s' ⟨ev, _, hs⟩
  exact ⟨ev, hs⟩

end Driven

/-- A loop from the beginning to an election, and the election. -/
def callElection (i : NodeID) : List DrivenEvent :=
  [.tick i .choose, .tick i (.fire 0), .tick i .receive, .tick i .readState,
    .event (.startElection i)]

end GammaFlow.Raft
