import GammaFlow.Storage.Replay
import GammaFlow.Raft.Writes

/-!
# Crashes and restarts

A node may stop at any time, also in the middle of a section, between two of the
records that the section writes. What it has written is kept; what it has in memory
is lost; and it comes back as a fresh node that has replayed its log.

Elections stay safe across this because every vote that counts is on record: the
records of a node are only ever extended, they hold at most one vote a term, and a
replay brings back enough of them to keep it that way (`Sworn`).

Goroutines of the stopped process are not removed from the network, so a reply that
was meant for it may still reach its successor. The terms keep that harmless.
-/

namespace GammaFlow.Raft

open GammaFlow.Storage

variable {rotates : List (List WalRecord) → WalRecord → Bool}

/-- `NewWAL` on what is left of the log, `NewNode`, `Replay` and `Start`. -/
def Config.restart (cfg : Config (Wal rotates)) (i : NodeID) (d : Wal rotates) :
    Node (Wal rotates) :=
  ((Node.newNode i (cfg.peers i) (some d)).replay (replay d.files)).start

/-- An event, or a crash: idle, or in the course of an event after some of its appends. -/
inductive Happening where
  | event (ev : Event)
  | crash (i : NodeID) (during : Option Event) (appends : Nat)
  deriving DecidableEq, Repr

/-- The records that reach the log of `i` before it stops. -/
def Cluster.lastWrites (cfg : Config (Wal rotates)) (w : Cluster (Wal rotates)) (i : NodeID)
    (during : Option Event) (appends : Nat) : List WalRecord :=
  match during with
  | none => []
  | some ev => if (w.act cfg ev).isSome then (w.writes i ev).take appends else []

def Cluster.undergo (cfg : Config (Wal rotates)) (w : Cluster (Wal rotates)) :
    Happening → Option (Cluster (Wal rotates))
  | .event ev => w.act cfg ev
  | .crash i during appends =>
      match (w.nodes i).wal with
      | none => none
      | some d =>
          if i ∈ cfg.ids then
            let left := Journal.appendAll d (w.lastWrites cfg i during appends)
            some { w.setNode i (cfg.restart i left) with
              applying := Function.update w.applying i none }
          else none

/-- A run with crashes. -/
def Cluster.CrashRun (cfg : Config (Wal rotates)) :
    Cluster (Wal rotates) → Cluster (Wal rotates) → Prop :=
  Execution.Run (Cluster.undergo cfg)

/-! ## What binds a node -/

/-- The records are orderly, and the node knows the last term and its vote in it. -/
structure Sworn (term : Nat) (votedFor : NodeID) (recs : List WalRecord) : Prop where
  orderly : Orderly recs
  bound : ∀ a ∈ recs, ∀ t, a.term? = some t → t ≤ term
  voted : ∀ v, WalRecord.vote v term ∈ recs → votedFor = v

theorem sworn_init : Sworn 0 "" [] :=
  ⟨⟨List.Pairwise.nil, fun _ h => absurd h (by simp), fun _ _ h => absurd h (by simp),
    fun _ _ _ h => absurd h (by simp)⟩, fun _ h => absurd h (by simp), fun _ h => absurd h (by simp)⟩

/-- **A replay restores what binds a node.** -/
theorem sworn_replay {files : List (List WalRecord)} (h : Orderly files.flatten) :
    Sworn (replay files).term (replay files).votedFor files.flatten :=
  ⟨h, (summarises_replay h).bound, (summarises_replay h).voted⟩

section Sworn

variable {t : Nat} {v : NodeID} {recs : List WalRecord}

/-- Appending one record to an orderly stream. -/
theorem orderly_snoc {r : WalRecord} (h : Orderly recs)
    (hs : ∀ a ∈ recs, ∀ s u, a.term? = some s → r.term? = some u → s ≤ u)
    (hp : ∀ u, r.term? = some u → 0 < u)
    (hn : ∀ X u, r = .vote X u → X ≠ "" ∧ ∀ Y, WalRecord.vote Y u ∈ recs → Y = X) :
    Orderly (recs ++ [r]) := by
  refine ⟨?_, ?_, ?_, ?_⟩
  · rw [List.pairwise_append]
    refine ⟨h.sorted, List.pairwise_singleton _ _, ?_⟩
    intro a ha b hb s u hsa hub
    rw [List.mem_singleton.mp hb] at hub
    exact hs a ha s u hsa hub
  · intro a ha u hu
    rcases List.mem_append.mp ha with ha | ha
    · exact h.pos a ha u hu
    · rw [List.mem_singleton.mp ha] at hu; exact hp u hu
  · intro X u hX
    rcases List.mem_append.mp hX with hX | hX
    · exact h.named X u hX
    · exact (hn X u (List.mem_singleton.mp hX).symm).1
  · intro X Y u hX hY
    rcases List.mem_append.mp hX with hX | hX
    · rcases List.mem_append.mp hY with hY | hY
      · exact h.unique X Y u hX hY
      · exact (hn Y u (List.mem_singleton.mp hY).symm).2 X hX
    · rcases List.mem_append.mp hY with hY | hY
      · exact ((hn X u (List.mem_singleton.mp hX).symm).2 Y hY).symm
      · have := (List.mem_singleton.mp hX).trans (List.mem_singleton.mp hY).symm
        injection this

/-- Moving on to a later term leaves the node free to vote. -/
theorem Sworn.term (h : Sworn t v recs) {t' : Nat} (ht : t < t') (v' : NodeID) :
    Sworn t' v' (recs ++ [.term t']) := by
  refine ⟨orderly_snoc h.orderly ?_ ?_ ?_, ?_, ?_⟩
  · intro a ha s u hs hu
    have := h.bound a ha s hs
    rw [← Option.some.inj hu]; omega
  · intro u hu
    rw [← Option.some.inj hu]; omega
  · intro X u hX; exact absurd hX (by simp)
  · intro a ha s hs
    rcases List.mem_append.mp ha with ha | ha
    · have := h.bound a ha s hs; omega
    · rw [List.mem_singleton.mp ha] at hs
      exact Nat.le_of_eq (Option.some.inj hs).symm
  · intro X hX
    rcases List.mem_append.mp hX with hX | hX
    · have := h.bound _ hX t' rfl; omega
    · exact absurd (List.mem_singleton.mp hX) (by simp)

/-- A vote binds the node for its term. -/
theorem Sworn.vote (h : Sworn t v recs) (ht : 0 < t) {X : NodeID} (hX : X ≠ "")
    (hv : v = "" ∨ v = X) : Sworn t X (recs ++ [.vote X t]) := by
  have hsame : ∀ Y, WalRecord.vote Y t ∈ recs → Y = X := by
    intro Y hY
    have hvY := h.voted Y hY
    rcases hv with hv | hv
    · exact absurd (hvY.symm.trans hv) (h.orderly.named Y t hY)
    · exact hvY.symm.trans hv
  refine ⟨orderly_snoc h.orderly ?_ ?_ ?_, ?_, ?_⟩
  · intro a ha s u hs hu
    rw [← Option.some.inj hu]; exact h.bound a ha s hs
  · intro u hu
    rw [← Option.some.inj hu]; exact ht
  · intro Y u hY
    injection hY with hYX htu
    rw [← hYX, ← htu]
    exact ⟨hX, hsame⟩
  · intro a ha s hs
    rcases List.mem_append.mp ha with ha | ha
    · exact h.bound a ha s hs
    · rw [List.mem_singleton.mp ha] at hs
      exact Nat.le_of_eq (Option.some.inj hs).symm
  · intro Y hY
    rcases List.mem_append.mp hY with hY | hY
    · exact (hsame Y hY).symm
    · have := List.mem_singleton.mp hY
      injection this with hYX
      exact hYX.symm

/-- Entries bind no one. -/
theorem Sworn.entry (h : Sworn t v recs) (e : EntryRecord) : Sworn t v (recs ++ [.entry e]) := by
  refine ⟨orderly_snoc h.orderly ?_ ?_ ?_, ?_, ?_⟩
  · intro a _ s u _ hu; exact absurd hu (by simp [WalRecord.term?])
  · intro u hu; exact absurd hu (by simp [WalRecord.term?])
  · intro X u hX; exact absurd hX (by simp)
  · intro a ha s hs
    rcases List.mem_append.mp ha with ha | ha
    · exact h.bound a ha s hs
    · rw [List.mem_singleton.mp ha] at hs; exact absurd hs (by simp [WalRecord.term?])
  · intro X hX
    rcases List.mem_append.mp hX with hX | hX
    · exact h.voted X hX
    · exact absurd (List.mem_singleton.mp hX) (by simp)

end Sworn

/-! ## Sections keep nodes sworn -/

/-- A node that keeps to what is on record. -/
def Node.IsSworn (n : Node (Wal rotates)) : Prop :=
  n.wal.isSome ∧ Sworn n.currentTerm n.votedFor n.records

theorem isSworn_iff {n : Node (Wal rotates)} :
    n.IsSworn ↔ n.Keeps fun t v d => Sworn t v d.records := by
  unfold Node.IsSworn Node.Keeps Node.records
  cases n.wal with
  | none => simp
  | some d => simp

/-- Votes for someone, in a term above `0`, keep a node sworn; so does all else it writes. -/
theorem survives_sworn : Survives (fun t v (d : Wal rotates) => Sworn t v d.records)
    (fun X t => X ≠ "" ∧ 0 < t) where
  term {t v d} h t' ht := by
    show Sworn t' "" (d.append (.term t')).records
    rw [Wal.records_append]; exact h.term ht ""
  vote {t v d} h X hX hv := by
    show Sworn t X (d.append (.vote X t)).records
    rw [Wal.records_append]; exact h.vote hX.2 hX.1 hv
  entry {t v d} h e := by
    show Sworn t v (d.append (.entry e)).records
    rw [Wal.records_append]; exact h.entry e

/-! ## What a node counts -/

section Counting

variable {ω : Type} [Journal ω]

/-- The node counts the same votes as before, in the same role and term. -/
structure SameCount (n n' : Node ω) : Prop where
  state : n'.state = n.state
  term : n'.currentTerm = n.currentTerm
  votes : n'.votes = n.votes
  received : n'.votesReceived = n.votesReceived

theorem handleRequestVote_count (n : Node ω) (args : RequestVoteArgs) :
    SameCount n (n.handleRequestVote args).1 ∨ (n.handleRequestVote args).1.state = .follower := by
  have hsee : SameCount n (n.seeTerm args.term) ∨ (n.seeTerm args.term).state = .follower := by
    unfold Node.seeTerm
    split
    · exact Or.inr (n.becomeFollowerLocked_state args.term)
    · exact Or.inl ⟨rfl, rfl, rfl, rfl⟩
  obtain ⟨v, rt, d, he⟩ := n.handleRequestVote_eq args
  rw [he]
  rcases hsee with h | h
  · exact Or.inl ⟨h.state, h.term, h.votes, h.received⟩
  · exact Or.inr h

theorem handleAppendEntries_count (n : Node ω) (args : AppendEntriesArgs) :
    SameCount n (n.handleAppendEntries args).1 ∨
      (n.handleAppendEntries args).1.state = .follower := by
  by_cases hlt : args.term < n.currentTerm
  · left
    unfold Node.handleAppendEntries
    rw [if_pos hlt]
    exact ⟨rfl, rfl, rfl, rfl⟩
  · obtain ⟨v, vr, log, c, rt, d, he⟩ := n.handleAppendEntries_eq args hlt
    right; rw [he]

theorem handleAppendReply_count (n : Node ω) (t : Nat) (p : NodeID) (es : List LogEntry)
    (r : AppendEntriesReply) : SameCount n (n.handleAppendReply t p es r) ∨
      (n.handleAppendReply t p es r).state = .follower := by
  rcases n.handleAppendReply_cases t p es r with ⟨_, _, he⟩ | ⟨ni, mi, c, _, _, he⟩
  · rw [he]; exact Or.inr (n.becomeFollowerLocked_state r.term)
  · left; rw [he]; exact ⟨rfl, rfl, rfl, rfl⟩

theorem submitCommand_count (n : Node ω) (command : Command) :
    SameCount n (n.submitCommand command).1 := by
  rcases n.submitCommand_cases command with ⟨_, he⟩ | ⟨_, d, he⟩
  · rw [he]; exact ⟨rfl, rfl, rfl, rfl⟩
  · rw [he]; exact ⟨rfl, rfl, rfl, rfl⟩

/-- The ways a vote reply can end: nothing counted, one more vote, or a leader. -/
theorem handleVoteReply_count (n : Node ω) (t : Nat) (p : NodeID) (r : RequestVoteReply) :
    SameCount n (n.handleVoteReply t p r) ∨ (n.handleVoteReply t p r).state = .follower ∨
    (n.state = .candidate ∧ n.currentTerm = t ∧ r.voteGranted = true ∧ p ∉ n.votesReceived ∧
      (n.handleVoteReply t p r).currentTerm = n.currentTerm ∧
      (n.handleVoteReply t p r).votes = n.votes + 1 ∧
      (n.handleVoteReply t p r).votesReceived = n.votesReceived ++ [p] ∧
      ((n.handleVoteReply t p r).state = .leader → n.votes + 1 ≥ n.majority)) := by
  have hv := n.voteReplied t p r
  generalize n.handleVoteReply t p r = n' at hv ⊢
  cases hv with
  | idle _ => exact Or.inl ⟨rfl, rfl, rfl, rfl⟩
  | stepDown _ _ _ => exact Or.inr (Or.inl (n.becomeFollowerLocked_state r.term))
  | counted ht hc _ hg hp _ =>
      refine Or.inr (Or.inr ⟨hc, ht, hg, hp, rfl, rfl, rfl, ?_⟩)
      intro hl
      dsimp only at hl
      rw [hc] at hl
      exact absurd hl (by simp)
  | elected ht hc _ hg hp hmaj =>
      exact Or.inr (Or.inr ⟨hc, ht, hg, hp, rfl, rfl, rfl, fun _ => hmaj⟩)

end Counting

/-! ## The cluster -/

variable {cfg : Config (Wal rotates)} {w w' : Cluster (Wal rotates)}

/-- The vote of `p` for `X` in term `t` is on record. -/
def Voted (w : Cluster (Wal rotates)) (p X : NodeID) (t : Nat) : Prop :=
  WalRecord.vote X t ∈ (w.nodes p).records

/-- What elections rest on, for one node. -/
structure NodeLawful (cfg : Config (Wal rotates)) (w : Cluster (Wal rotates)) (i : NodeID)
    (n : Node (Wal rotates)) : Prop where
  id : n.id = i
  peers : n.peers = cfg.peers i
  sworn : n.IsSworn
  tally : n.state = .candidate → n.votes = n.votesReceived.length ∧ n.votesReceived.Nodup ∧
    ∀ p ∈ n.votesReceived, p ∈ cfg.ids ∧ Voted w p i n.currentTerm
  elected : n.state = .leader →
    cfg.quorum.IsQuorum {p | p ∈ cfg.ids ∧ Voted w p i n.currentTerm}

structure LawfulCall (cfg : Config (Wal rotates)) (c : VoteCall) : Prop where
  caller : c.caller ∈ cfg.ids
  peer : c.peer ∈ cfg.peers c.caller
  candidate : c.args.candidateID = c.caller
  term : 0 < c.args.term

structure Lawful (cfg : Config (Wal rotates)) (w : Cluster (Wal rotates)) : Prop where
  nodes : ∀ i ∈ cfg.ids, NodeLawful cfg w i (w.nodes i)
  calls : ∀ c ∈ w.voteCalls, LawfulCall cfg c
  replies : ∀ cr ∈ w.voteReplies, LawfulCall cfg cr.1 ∧
    (cr.2.voteGranted = true → Voted w cr.1.peer cr.1.caller cr.1.args.term)

/-- Votes stay on record. -/
def Extends (cfg : Config (Wal rotates)) (w w' : Cluster (Wal rotates)) : Prop :=
  ∀ p ∈ cfg.ids, (w.nodes p).records <+: (w'.nodes p).records

theorem Voted.mono {p X : NodeID} {t : Nat} (h : Voted w p X t) (hp : p ∈ cfg.ids)
    (he : Extends cfg w w') : Voted w' p X t := (he p hp).subset h

theorem isQuorum_voted_mono {X : NodeID} {t : Nat} (he : Extends cfg w w')
    (h : cfg.quorum.IsQuorum {p | p ∈ cfg.ids ∧ Voted w p X t}) :
    cfg.quorum.IsQuorum {p | p ∈ cfg.ids ∧ Voted w' p X t} :=
  cfg.quorum.mono (fun _ hp => ⟨hp.1, hp.2.mono hp.1 he⟩) h

/-- A node that counts what it counted before. -/
theorem NodeLawful.of_count {i : NodeID} {n n' : Node (Wal rotates)} (h : NodeLawful cfg w i n)
    (he : Extends cfg w w') (hid : n'.id = n.id) (hpeers : n'.peers = n.peers) (hs : n'.IsSworn)
    (hcount : SameCount n n' ∨ n'.state = .follower) : NodeLawful cfg w' i n' where
  id := hid.trans h.id
  peers := hpeers.trans h.peers
  sworn := hs
  tally hc := by
    rcases hcount with hsame | hf
    · obtain ⟨hv, hnd, hall⟩ := h.tally (hsame.state.symm.trans hc)
      rw [hsame.votes, hsame.received, hsame.term]
      exact ⟨hv, hnd, fun p hp => ⟨(hall p hp).1, (hall p hp).2.mono (hall p hp).1 he⟩⟩
    · rw [hf] at hc; exact absurd hc (by simp)
  elected hl := by
    rcases hcount with hsame | hf
    · rw [hsame.term]
      exact isQuorum_voted_mono he (h.elected (hsame.state.symm.trans hl))
    · rw [hf] at hl; exact absurd hl (by simp)

theorem extends_of_act (h : Lawful cfg w) {ev : Event} (hs : w.act cfg ev = some w') :
    Extends cfg w w' := by
  intro p hp
  rw [(records_of_wal (h.nodes p hp).sworn.1 (act_wal hs p)).2]
  exact List.prefix_append _ _

/-- One more vote, and perhaps the last one needed. -/
theorem nodeLawful_voteReply {i : NodeID} (h : NodeLawful cfg w i (w.nodes i))
    (he : Extends cfg w w') (hi : i ∈ cfg.ids) {c : VoteCall} {r : RequestVoteReply}
    (hc : LawfulCall cfg c) (hci : c.caller = i)
    (hr : r.voteGranted = true → Voted w c.peer c.caller c.args.term) :
    NodeLawful cfg w' i ((w.nodes i).handleVoteReply c.args.term c.peer r) := by
  have hq := (w.nodes i).quiet_handleVoteReply c.args.term c.peer r
  have hsw := isSworn_iff.mpr
    (survives_sworn.handleVoteReply (isSworn_iff.mp h.sworn) c.args.term c.peer r)
  have hcount := handleVoteReply_count (w.nodes i) c.args.term c.peer r
  generalize (w.nodes i).handleVoteReply c.args.term c.peer r = n' at hq hsw hcount ⊢
  rcases hcount with hsame | hf | ⟨hcand, ht, hg, hp, hterm, hvotes, hrec, hmaj⟩
  · exact h.of_count he hq.id hq.peers hsw (Or.inl hsame)
  · exact h.of_count he hq.id hq.peers hsw (Or.inr hf)
  obtain ⟨hv, hnd, hall⟩ := h.tally hcand
  have hnd' : ((w.nodes i).votesReceived ++ [c.peer]).Nodup := by
    rw [← List.concat_eq_append]; exact hnd.concat hp
  have hall' : ∀ p ∈ (w.nodes i).votesReceived ++ [c.peer],
      p ∈ cfg.ids ∧ Voted w' p i (w.nodes i).currentTerm := by
    intro p hpm
    rcases List.mem_append.mp hpm with hpm | hpm
    · exact ⟨(hall p hpm).1, (hall p hpm).2.mono (hall p hpm).1 he⟩
    · have hid := (cfg.mem_peers hc.caller hc.peer).1
      have hvote := hr hg
      rw [hci, ← ht] at hvote
      rw [List.mem_singleton.mp hpm]
      exact ⟨hid, hvote.mono hid he⟩
  have hlen : ((w.nodes i).votesReceived ++ [c.peer]).length = (w.nodes i).votes + 1 := by
    rw [List.length_append, List.length_singleton, hv]
  refine ⟨hq.id.trans h.id, hq.peers.trans h.peers, hsw, ?_, ?_⟩
  · intro _
    rw [hvotes, hrec, hterm]
    exact ⟨hlen.symm, hnd', hall'⟩
  · intro hl
    rw [hterm]
    exact cfg.isQuorum_of_majority hi h.peers hnd'
      (fun p hpm => ⟨(hall' p hpm).1, hall' p hpm⟩) (by rw [hlen]; exact hmaj hl)

/-- Every section of a member keeps to the law. -/
theorem nodeLawful_step (h : Lawful cfg w) {ev : Event} (hs : w.act cfg ev = some w') {i : NodeID}
    (hi : i ∈ cfg.ids) : NodeLawful cfg w' i (w'.nodes i) := by
  have hn := h.nodes i hi
  have hk := isSworn_iff.mp hn.sworn
  have he := extends_of_act h hs
  have hne : ∀ j ∈ cfg.ids, j ≠ "" := fun j hj hj0 => cfg.id_ne_empty (hj0 ▸ hj)
  rcases act_nodes hs i with heq | hst
  · rw [heq]; exact hn.of_count he rfl rfl hn.sworn (Or.inl ⟨rfl, rfl, rfl, rfl⟩)
  have hwal := act_wal hs i
  generalize hn' : w'.nodes i = n' at hst hwal ⊢
  cases hst with
  | startElection hmem =>
      have hq := (w.nodes i).quiet_startElection
      have hsw := isSworn_iff.mpr (survives_sworn.startElection hk
        ⟨by rw [hn.id]; exact hne i hi, Nat.succ_pos _⟩)
      obtain ⟨rt, d, hse, _⟩ := (w.nodes i).startElection_eq
      refine ⟨hq.id.trans hn.id, hq.peers.trans hn.peers, hsw, ?_, ?_⟩
      · -- the one vote counted is the node's own, and it has just been recorded
        intro _
        have hown : Voted w' i i ((w.nodes i).currentTerm + 1) := by
          unfold Voted
          rw [hn', (records_of_wal hn.sworn.1 (w.nodes i).startElection_wal).2]
          unfold Node.startElectionWrites
          rw [hn.id]
          simp
        rw [hse]
        refine ⟨rfl, by simp, ?_⟩
        intro p hp
        rw [List.mem_singleton.mp hp, hn.id]
        exact ⟨hi, hown⟩
      · intro hl
        rw [Node.startElection_state] at hl
        exact absurd hl (by simp)
  | requestVote k c hc hp =>
      have hcall := h.calls c (List.mem_of_getElem? hc)
      have hq := (w.nodes i).quiet_handleRequestVote c.args
      have hsw := isSworn_iff.mpr (survives_sworn.handleRequestVote hk
        ⟨by rw [hcall.candidate]; exact hne _ hcall.caller, hcall.term⟩)
      exact hn.of_count he hq.id hq.peers hsw (handleRequestVote_count _ _)
  | voteReply k c r hc hp =>
      obtain ⟨hcall, hgr⟩ := h.replies (c, r) (List.mem_of_getElem? hc)
      exact nodeLawful_voteReply hn he hi hcall hp hgr
  | appendEntries k c hc hp =>
      refine hn.of_count he ?_ ?_ (isSworn_iff.mpr (survives_sworn.handleAppendEntries hk c.args))
        (handleAppendEntries_count _ _)
      · exact (Node.handleAppendEntries_frame _ _).1
      · exact (Node.handleAppendEntries_frame _ _).2.1
  | appendReply k c r hc hp =>
      have hq := (w.nodes i).quiet_handleAppendReply c.args.term c.peer c.args.entries r
      exact hn.of_count he hq.id hq.peers
        (isSworn_iff.mpr (survives_sworn.handleAppendReply hk _ _ _ _))
        (handleAppendReply_count _ _ _ _ _)
  | submitCommand command hmem =>
      refine hn.of_count he ?_ ?_ (isSworn_iff.mpr (survives_sworn.submitCommand hk command))
        (Or.inl (submitCommand_count _ _))
      · exact (Node.submitCommand_frame _ _).1
      · exact (Node.submitCommand_frame _ _).2.1
  | finishApply m hm =>
      exact hn.of_count he rfl rfl hn.sworn (Or.inl ⟨rfl, rfl, rfl, rfl⟩)

theorem lawful_step (h : Lawful cfg w) {ev : Event} (hs : w.act cfg ev = some w') :
    Lawful cfg w' := by
  have he := extends_of_act h hs
  refine ⟨fun i hi => nodeLawful_step h hs hi, ?_, ?_⟩
  · intro c hc
    rcases act_voteCalls hs with heq | ⟨i, hi, _, heq⟩
    · rw [heq] at hc; exact h.calls c hc
    · rw [heq] at hc
      rcases List.mem_append.mp hc with hc | hc
      · exact h.calls c hc
      · obtain ⟨p, hp, rfl⟩ := List.mem_map.mp hc
        obtain ⟨rt, d, hse, hargs⟩ := (w.nodes i).startElection_eq
        rw [hse] at hp
        refine ⟨hi, by rw [← (h.nodes i hi).peers]; exact hp, ?_, ?_⟩
        · dsimp only; rw [hargs]; exact (h.nodes i hi).id
        · dsimp only; rw [hargs]; exact Nat.succ_pos _
  · intro cr hcr
    have hold : ∀ cr ∈ w.voteReplies, LawfulCall cfg cr.1 ∧
        (cr.2.voteGranted = true → Voted w' cr.1.peer cr.1.caller cr.1.args.term) := by
      intro cr hcr
      obtain ⟨hcall, hgr⟩ := h.replies cr hcr
      exact ⟨hcall, fun hg => (hgr hg).mono (cfg.mem_peers hcall.caller hcall.peer).1 he⟩
    rcases act_voteReplies hs with heq | ⟨k, c, hev, hc, hnode, heq⟩
    · rw [heq] at hcr; exact hold cr hcr
    · rw [heq] at hcr
      rcases List.mem_append.mp hcr with hcr | hcr
      · exact hold cr hcr
      · -- a vote that was granted just now was recorded just now
        have hcall := h.calls c (List.mem_of_getElem? hc)
        rw [List.mem_singleton.mp hcr]
        refine ⟨hcall, ?_⟩
        intro hg
        have hid := (cfg.mem_peers hcall.caller hcall.peer).1
        unfold Voted
        rw [hnode, (records_of_wal (h.nodes _ hid).sworn.1
          ((w.nodes c.peer).handleRequestVote_wal c.args)).2]
        unfold Node.requestVoteWrites
        rcases (w.nodes c.peer).handleRequestVote_cases c.args with ⟨_, _, hno⟩ | ⟨hyes, _⟩
        · dsimp only at hg; rw [hno] at hg; exact absurd hg (by simp)
        · rw [if_pos hyes, hcall.candidate]
          simp

/-! ## Crashes -/

/-- However far the last section got, what it left behind is orderly. -/
theorem orderly_lastWrites (h : Lawful cfg w) {i : NodeID} (hi : i ∈ cfg.ids)
    (during : Option Event) (appends : Nat) :
    Orderly ((w.nodes i).records ++ w.lastWrites cfg i during appends) := by
  have hidle : Orderly ((w.nodes i).records ++ []) := by
    rw [List.append_nil]; exact (h.nodes i hi).sworn.2.orderly
  unfold Cluster.lastWrites
  cases during with
  | none => exact hidle
  | some ev =>
      dsimp only
      split
      · rename_i hsome
        obtain ⟨w₁, hs⟩ := Option.isSome_iff_exists.mp hsome
        -- a part of what the whole section would have written
        have hwhole := (nodeLawful_step h hs hi).sworn.2.orderly
        rw [(records_of_wal (h.nodes i hi).sworn.1 (act_wal hs i)).2,
          ← List.take_append_drop appends (w.writes i ev), ← List.append_assoc] at hwhole
        exact hwhole.of_append_left
      · exact hidle

theorem restart_eq (cfg : Config (Wal rotates)) (i : NodeID) (d : Wal rotates) : ∃ log rt,
    cfg.restart i d = { Node.newNode i (cfg.peers i) (some d) with
      currentTerm := (replay d.files).term
      votedFor := (replay d.files).votedFor
      log := log
      rt := rt } := by
  obtain ⟨log, he⟩ := (Node.newNode i (cfg.peers i) (some d)).replay_eq (replay d.files)
  unfold Config.restart
  rw [he]
  exact ⟨log, _, rfl⟩

theorem records_restart (cfg : Config (Wal rotates)) (i : NodeID) (d : Wal rotates) :
    (cfg.restart i d).records = d.records := by
  obtain ⟨log, rt, he⟩ := restart_eq cfg i d
  unfold Node.records
  rw [he]
  rfl

/-- A restarted node keeps to what is on record. -/
theorem nodeLawful_restart {i : NodeID} {d : Wal rotates} (ho : Orderly d.records) :
    NodeLawful cfg w i (cfg.restart i d) := by
  obtain ⟨log, rt, he⟩ := restart_eq cfg i d
  rw [he]
  refine ⟨rfl, rfl, ⟨rfl, sworn_replay ho⟩, ?_, ?_⟩
  · intro hs; exact absurd hs (by simp [Node.newNode])
  · intro hs; exact absurd hs (by simp [Node.newNode])

/-- **A crash loses no vote.** -/
theorem lawful_crash (h : Lawful cfg w) {i : NodeID} {during : Option Event} {appends : Nat}
    (hs : w.undergo cfg (.crash i during appends) = some w') :
    Lawful cfg w' ∧ Extends cfg w w' := by
  rw [Cluster.undergo] at hs
  split at hs
  · exact absurd hs (by simp)
  rename_i d hd
  split at hs
  swap
  · exact absurd hs (by simp)
  rename_i hi
  obtain rfl := Option.some.inj hs
  -- the restarted node finds the old records and behind them the last writes
  have hrec : (w.nodes i).records = d.records := by
    unfold Node.records; rw [hd]
  have hleft : (Journal.appendAll d (w.lastWrites cfg i during appends)).records
      = (w.nodes i).records ++ w.lastWrites cfg i during appends := by
    rw [hrec]; exact Wal.records_appendAll _ d
  have ho := orderly_lastWrites h hi during appends
  rw [← hleft] at ho
  generalize Journal.appendAll d (w.lastWrites cfg i during appends) = left at hleft ho
  have hext : Extends cfg w { w.setNode i (cfg.restart i left) with
      applying := Function.update w.applying i none } := by
    intro p hp
    dsimp only
    by_cases hpi : p = i
    · rw [hpi, setNode_self, records_restart, hleft]
      exact List.prefix_append _ _
    · rw [setNode_ne w i _ hpi]
  refine ⟨⟨?_, h.calls, ?_⟩, hext⟩
  · intro j hj
    dsimp only
    by_cases hji : j = i
    · rw [hji, setNode_self]; exact nodeLawful_restart ho
    · rw [setNode_ne w i _ hji]
      exact (h.nodes j hj).of_count hext rfl rfl (h.nodes j hj).sworn (Or.inl ⟨rfl, rfl, rfl, rfl⟩)
  · intro cr hcr
    obtain ⟨hcall, hgr⟩ := h.replies cr hcr
    exact ⟨hcall, fun hg => (hgr hg).mono (cfg.mem_peers hcall.caller hcall.peer).1 hext⟩

theorem lawful_undergo (h : Lawful cfg w) {x : Happening} (hs : w.undergo cfg x = some w') :
    Lawful cfg w' ∧ Extends cfg w w' := by
  cases x with
  | event ev => exact ⟨lawful_step h hs, extends_of_act h hs⟩
  | crash i during appends => exact lawful_crash h hs

theorem lawful_init (hwal : ∀ i ∈ cfg.ids, cfg.wal i = some Wal.empty) :
    Lawful cfg (Cluster.init cfg) where
  nodes i hi := by
    have hw : ((Cluster.init cfg).nodes i).wal = some Wal.empty := hwal i hi
    have hr : ((Cluster.init cfg).nodes i).records = [] := by
      unfold Node.records; rw [hw]; rfl
    refine ⟨rfl, rfl, ⟨by rw [hw]; rfl, by rw [hr]; exact sworn_init⟩, ?_, ?_⟩
    · intro hs; exact absurd hs (by simp [Cluster.init, Node.newNode, Node.start])
    · intro hs; exact absurd hs (by simp [Cluster.init, Node.newNode, Node.start])
  calls c hc := absurd hc (by simp [Cluster.init])
  replies cr hcr := absurd hcr (by simp [Cluster.init])

/-- Along a run with crashes the law holds and nothing on record is lost. -/
theorem lawful_run (h : Lawful cfg w) (hr : Cluster.CrashRun cfg w w') :
    Lawful cfg w' ∧ Extends cfg w w' := by
  refine Execution.Run.invariant hr ⟨h, fun _ _ => List.prefix_rfl⟩ ?_
  rintro w₁ x w₂ _ ⟨h₁, he₁⟩ hx
  obtain ⟨h₂, he₂⟩ := lawful_undergo h₁ hx
  exact ⟨h₂, fun p hp => (he₁ p hp).trans (he₂ p hp)⟩

/--
**Election safety across restarts.** In a run in which nodes crash between any two
of their appends and come back from their logs, no two members are ever leader of
the same term, at the same moment or at different ones.
-/
theorem election_safety (hwal : ∀ i ∈ cfg.ids, cfg.wal i = some Wal.empty)
    (hw : Cluster.CrashRun cfg (Cluster.init cfg) w) (hr : Cluster.CrashRun cfg w w') {i j : NodeID}
    (hi : i ∈ cfg.ids) (hj : j ∈ cfg.ids) (hli : (w.nodes i).state = .leader)
    (hlj : (w'.nodes j).state = .leader)
    (ht : (w.nodes i).currentTerm = (w'.nodes j).currentTerm) : i = j := by
  obtain ⟨h, _⟩ := lawful_run (lawful_init hwal) hw
  obtain ⟨h', he⟩ := lawful_run h hr
  have hqi := isQuorum_voted_mono he ((h.nodes i hi).elected hli)
  have hqj := (h'.nodes j hj).elected hlj
  -- someone is on record with a vote for both
  obtain ⟨p, ⟨hp, hpi⟩, _, hpj⟩ := cfg.quorum.inter hqi hqj
  rw [ht] at hpi
  exact (h'.nodes p hp).sworn.2.orderly.unique i j _ hpi hpj

/--
Node `a` stops after recording the new term and before recording its vote, is asked
again, and stops once more after the vote. In the end it still refuses `c`.
-/
theorem election_safety_abc : ∃ w w', Cluster.CrashRun durableABC (Cluster.init durableABC) w ∧
    Cluster.CrashRun durableABC w w' ∧ (w.nodes "b").state = .leader ∧
    (w.nodes "b").currentTerm = 1 ∧ (w'.nodes "c").currentTerm = 1 ∧
    ∀ j ∈ durableABC.ids, (w'.nodes j).state = .leader → (w'.nodes j).currentTerm = 1 → j = "b" := by
  obtain ⟨w, hx, ⟨hb, hbt⟩, w', hx', h'⟩ :
      ∃ w ∈ Execution.exec (Cluster.undergo durableABC) (Cluster.init durableABC)
        [.event (.startElection "b"), .crash "a" (some (.requestVote 0)) 1,
          .event (.requestVote 0), .event (.voteReply 0)],
        ((w.nodes "b").state = .leader ∧ (w.nodes "b").currentTerm = 1) ∧
        ∃ w' ∈ Execution.exec (Cluster.undergo durableABC) w
          [.crash "a" none 0, .event (.startElection "c"), .event (.requestVote 2),
            .event (.voteReply 1)],
          (w'.nodes "c").currentTerm = 1 := by
    decide +kernel
  have hw := Execution.run_of_exec hx
  have hr := Execution.run_of_exec hx'
  refine ⟨w, w', hw, hr, hb, hbt, h', ?_⟩
  intro j hj hl ht
  exact (election_safety (fun _ _ => rfl) hw hr (i := "b") (by decide) hj hb hl
    (by rw [hbt, ht])).symm

end GammaFlow.Raft
