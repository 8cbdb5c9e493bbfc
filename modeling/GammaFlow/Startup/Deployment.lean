import GammaFlow.Raft.Hints
import GammaFlow.Startup.Flags
import GammaFlow.Transport.Connections

/-!
# A deployment

`docker-compose.yml` starts every server with flags that are written from one list of
servers: the others with their gRPC addresses, and everybody with their HTTP addresses.
Here the pieces of `main` are put together. The flags are parsed, the peers go to the node,
the gRPC addresses to the transport and the HTTP addresses to the handler.

Through any run, restarts included, every request is then sent to a server whose address
the sender has, and every hint names a server that clients can be sent to
(`deployment_addressed`).
-/

namespace GammaFlow.Startup

open GammaFlow.Raft GammaFlow.Storage
open GammaFlow.Transport (Pool newGRPCTransport lookup_of_mem tight_run blames_run)

/-- A server and where it can be reached. -/
structure Member where
  id : NodeID
  grpcAddr : String
  httpAddr : String

/-- The servers, under names and addresses that can stand in a flag. -/
structure Roster where
  members : List Member
  nodup : (members.map Member.id).Nodup
  id_ne_empty : "" ∉ members.map Member.id
  id_listable : ∀ m ∈ members, Listable m.id ∧ '=' ∉ m.id.toList
  addr_listable : ∀ m ∈ members, Listable m.grpcAddr ∧ Listable m.httpAddr

/-- The addresses of one kind of some of them. -/
def addrMap (ms : List Member) (addr : Member → String) : AddrMap := ms.map fun m => (m.id, addr m)

theorem lookup_addrMap {ms : List Member} (hnd : (ms.map Member.id).Nodup) (addr : Member → String)
    {m : Member} (hm : m ∈ ms) : (addrMap ms addr).reverse.lookup m.id = some (addr m) := by
  refine lookup_of_mem ?_ (List.mem_reverse.mpr (List.mem_map.mpr ⟨m, hm, rfl⟩))
  rw [List.map_reverse, List.nodup_reverse, addrMap, List.map_map]
  exact hnd

variable {ω : Type} {r : Roster} {f : Flags} {m q : Member}

namespace Roster

def others (r : Roster) (i : NodeID) : List Member := r.members.filter (·.id ≠ i)

/-- The flags of a member. What does not depend on the others is as in `f`. -/
def flags (r : Roster) (f : Flags) (m : Member) : Flags :=
  { f with
    nodeID := m.id
    peers := ",".intercalate ((r.others m.id).map Member.id)
    peerGRPC := ",".intercalate ((addrMap (r.others m.id) Member.grpcAddr).map pairText)
    peerHTTP := ",".intercalate ((addrMap r.members Member.httpAddr).map pairText) }

/-- What the flags of a member say. -/
def settings (r : Roster) (f : Flags) (m : Member) : Settings where
  nodeID := m.id
  peers := (r.others m.id).map Member.id
  httpAddr := f.httpAddr
  grpcAddr := f.grpcAddr
  dataDir := f.dataDir
  peerGRPCAddrs := (addrMap (r.others m.id) Member.grpcAddr).reverse
  peerHTTPAddrs := (addrMap r.members Member.httpAddr).reverse

/-- The cluster that the servers form. -/
def config (r : Roster) (wal : NodeID → Option ω) : Config ω where
  ids := r.members.map Member.id
  nodup := r.nodup
  id_ne_empty := r.id_ne_empty
  peers i := (r.others i).map Member.id
  peers_perm i _ := by
    rw [r.nodup.erase_eq_filter, List.filter_map]
    refine List.Perm.of_eq (congrArg _ (List.filter_congr fun q _ => ?_))
    simp [bne, beq_eq_decide]
  wal := wal

theorem mem_others {i : NodeID} : q ∈ r.others i ↔ q ∈ r.members ∧ q.id ≠ i := by
  simp [others]

theorem nodup_others (r : Roster) (i : NodeID) : ((r.others i).map Member.id).Nodup :=
  r.nodup.sublist (List.filter_sublist.map _)

/-- **The flags say what they are written from.** -/
theorem parse_flags (r : Roster) (f : Flags) (hm : m ∈ r.members) :
    parse (r.flags f m) = .ok (r.settings f m) := by
  have hothers : ∀ q ∈ r.others m.id, q ∈ r.members := fun q hq => (mem_others.mp hq).1
  have hpeers : fields (r.flags f m).peers = ((r.others m.id).map Member.id).map String.toList := by
    refine fields_intercalate (List.forall_mem_map.mpr fun q hq => (r.id_listable q (hothers q hq)).1) ?_
    intro h
    obtain ⟨q, hq, heq⟩ := List.mem_map.mp h
    exact r.id_ne_empty (List.mem_map.mpr ⟨q, hothers q hq, heq⟩)
  have hid : ∀ b ∈ addrMap (r.others m.id) Member.grpcAddr, Listable b.1 ∧ '=' ∉ b.1.toList :=
    List.forall_mem_map.mpr fun q hq => r.id_listable q (hothers q hq)
  have haddr : ∀ b ∈ addrMap (r.others m.id) Member.grpcAddr, Listable b.2 :=
    List.forall_mem_map.mpr fun q hq => (r.addr_listable q (hothers q hq)).1
  have hid' : ∀ b ∈ addrMap r.members Member.httpAddr, Listable b.1 ∧ '=' ∉ b.1.toList :=
    List.forall_mem_map.mpr r.id_listable
  have haddr' : ∀ b ∈ addrMap r.members Member.httpAddr, Listable b.2 :=
    List.forall_mem_map.mpr fun q hq => (r.addr_listable q hq).2
  have hname : (r.flags f m).nodeID ≠ "" := fun h => r.id_ne_empty (List.mem_map.mpr ⟨m, hm, h⟩)
  have hsays : (r.flags f m).settings = r.settings f m := by
    rw [settings, ← bindings_pairs hid haddr, ← bindings_pairs hid' haddr', Flags.settings, hpeers]
    simp [flags]
  have hgrpc : unsigned (r.flags f m).peerGRPC = none := unsigned_pairs hid haddr
  have hhttp : unsigned (r.flags f m).peerHTTP = none := unsigned_pairs hid' haddr'
  rw [parse_eq, if_neg hname, hgrpc, hhttp, hsays]
  rfl

end Roster

/-! ## Who talks to whom -/

/-- A request goes from a member to one of its peers. -/
def Between (cfg : Config ω) (caller peer : NodeID) : Prop :=
  caller ∈ cfg.ids ∧ peer ∈ cfg.peers caller

/-- Members only talk to and of each other. -/
structure Addressed (cfg : Config ω) (w : Cluster ω) : Prop where
  ids : ∀ i, (w.nodes i).id = i
  peers : ∀ i, (w.nodes i).peers = cfg.peers i
  hints : ∀ i, (w.nodes i).leaderID = "" ∨ (w.nodes i).leaderID ∈ cfg.ids
  votes : ∀ c ∈ w.voteCalls, Between cfg c.caller c.peer
  voteReplies : ∀ cr ∈ w.voteReplies, Between cfg cr.1.caller cr.1.peer
  heartbeats : ∀ hb ∈ w.heartbeats, Between cfg hb.caller hb.peer ∧ hb.leaderID = hb.caller
  appends : ∀ c ∈ w.appendCalls, Between cfg c.caller c.peer ∧ c.args.leaderID = c.caller

variable [Journal ω] {cfg : Config ω} {w w' : Cluster ω}

/-- A section leaves a node's name and peers alone, and its hint names a member after it too. -/
theorem addressed_section {i : NodeID} {ev : Event} {n : Node ω} (h : Addressed cfg w)
    (hst : NodeStep cfg w i ev n) :
    n.id = i ∧ n.peers = cfg.peers i ∧ (n.leaderID = "" ∨ n.leaderID ∈ cfg.ids) := by
  have hid := h.ids i
  have hpeers := h.peers i
  have hhint := h.hints i
  cases hst with
  | startElection _ =>
      obtain ⟨rt, d, he, _⟩ := (w.nodes i).startElection_eq
      rw [he]
      exact ⟨hid, hpeers, Or.inl rfl⟩
  | requestVote k c _ _ =>
      obtain ⟨v, rt, d, he⟩ := (w.nodes i).handleRequestVote_eq c.args
      rw [he]
      unfold Node.seeTerm
      split
      · obtain ⟨rt', d', hb⟩ := (w.nodes i).becomeFollowerLocked_eq c.args.term
        rw [hb]
        exact ⟨hid, hpeers, hhint⟩
      · exact ⟨hid, hpeers, hhint⟩
  | voteReply k c r hk hc =>
      have hv := (w.nodes i).voteReplied c.args.term c.peer r
      generalize (w.nodes i).handleVoteReply c.args.term c.peer r = n' at hv ⊢
      cases hv with
      | idle _ => exact ⟨hid, hpeers, hhint⟩
      | stepDown _ _ _ =>
          obtain ⟨rt, d, hb⟩ := (w.nodes i).becomeFollowerLocked_eq r.term
          rw [hb]
          exact ⟨hid, hpeers, hhint⟩
      | counted _ _ _ _ _ _ => exact ⟨hid, hpeers, hhint⟩
      | elected _ _ _ _ _ _ =>
          refine ⟨hid, hpeers, Or.inr ?_⟩
          show (w.nodes i).id ∈ cfg.ids
          rw [hid, ← hc]
          exact (h.voteReplies _ (List.mem_of_getElem? hk)).1
  | appendEntries k c hk _ =>
      obtain ⟨hbetween, hname⟩ := h.appends c (List.mem_of_getElem? hk)
      have hleader : c.args.leaderID ∈ cfg.ids := by rw [hname]; exact hbetween.1
      have hh := (w.nodes i).appendHandled c.args
      generalize ((w.nodes i).handleAppendEntries c.args).1 = n' at hh ⊢
      generalize ((w.nodes i).handleAppendEntries c.args).2 = r at hh
      cases hh with
      | stale _ => exact ⟨hid, hpeers, hhint⟩
      | refused _ _ _ _ _ _ => exact ⟨hid, hpeers, Or.inr hleader⟩
      | accepted _ _ _ _ _ _ => exact ⟨hid, hpeers, Or.inr hleader⟩
  | appendReply k c r _ _ =>
      rcases (w.nodes i).handleAppendReply_cases c.args.term c.peer c.args.entries r with
        ⟨_, _, he⟩ | ⟨ni, mi, cm, _, _, he⟩
      · obtain ⟨rt, d, hb⟩ := (w.nodes i).becomeFollowerLocked_eq r.term
        rw [he, hb]
        exact ⟨hid, hpeers, hhint⟩
      · rw [he]; exact ⟨hid, hpeers, hhint⟩
  | submitCommand command _ =>
      rcases (w.nodes i).submitCommand_cases command with ⟨_, he⟩ | ⟨_, d, he⟩
      · rw [he]; exact ⟨hid, hpeers, hhint⟩
      · rw [he]; exact ⟨hid, hpeers, hhint⟩
  | finishApply _ _ => exact ⟨hid, hpeers, hhint⟩

theorem addressed_act {ev : Event} (h : Addressed cfg w) (hs : w.act cfg ev = some w') :
    Addressed cfg w' := by
  have hnodes : ∀ i, (w'.nodes i).id = i ∧ (w'.nodes i).peers = cfg.peers i ∧
      ((w'.nodes i).leaderID = "" ∨ (w'.nodes i).leaderID ∈ cfg.ids) := by
    intro i
    rcases act_nodes hs i with heq | hst
    · rw [heq]; exact ⟨h.ids i, h.peers i, h.hints i⟩
    · exact addressed_section h hst
  have hpeer : ∀ {i p}, i ∈ cfg.ids → p ∈ (w.nodes i).peers → Between cfg i p := by
    intro i p hi hp
    exact ⟨hi, h.peers i ▸ hp⟩
  refine ⟨fun i => (hnodes i).1, fun i => (hnodes i).2.1, fun i => (hnodes i).2.2, ?_, ?_, ?_, ?_⟩
  · rcases act_voteCalls hs with heq | ⟨i, hi, _, heq⟩
    · rw [heq]; exact h.votes
    · rw [heq]
      refine List.forall_mem_append.mpr ⟨h.votes, List.forall_mem_map.mpr fun p hp => hpeer hi ?_⟩
      obtain ⟨rt, d, he, _⟩ := (w.nodes i).startElection_eq
      rwa [he] at hp
  · rcases act_voteReplies hs with heq | ⟨k, c, _, hk, _, heq⟩
    · rw [heq]; exact h.voteReplies
    · rw [heq]
      exact List.forall_mem_append.mpr ⟨h.voteReplies,
        List.forall_mem_singleton.mpr (h.votes c (List.mem_of_getElem? hk))⟩
  · intro hb hmem
    rcases mem_heartbeats hs hmem with hmem | ⟨i, p, hi, _, hp, rfl⟩
    · exact h.heartbeats hb hmem
    · exact ⟨hpeer hi hp, h.ids i⟩
  · intro c hmem
    rcases mem_appendCalls hs hmem with hmem | ⟨k, hb, _, hk, rfl⟩ | ⟨i, p, hi, _, hp, rfl⟩
    · exact h.appends c hmem
    · exact h.heartbeats hb (List.mem_of_getElem? hk)
    · exact ⟨hpeer hi hp, h.ids i⟩

/-- A restarted node has its name and its peers from its flags, and no hint. -/
theorem addressed_occur {t : Occurrence ω} (h : Addressed cfg w) (hs : w.occur cfg t = some w') :
    Addressed cfg w' := by
  cases t with
  | event ev => exact addressed_act h hs
  | restart j wal r =>
      have hnodes : ∀ i, (w'.nodes i).id = i ∧ (w'.nodes i).peers = cfg.peers i ∧
          ((w'.nodes i).leaderID = "" ∨ (w'.nodes i).leaderID ∈ cfg.ids) := by
        intro i
        rcases occur_nodes hs i with heq | ⟨_, hev, _⟩ | ⟨wal, r, he⟩
        · rw [heq]; exact ⟨h.ids i, h.peers i, h.hints i⟩
        · exact absurd hev (by simp)
        · obtain ⟨log, rt, hr⟩ := reborn_eq cfg i wal r
          rw [he, hr]
          exact ⟨rfl, rfl, Or.inl rfl⟩
      rw [Cluster.occur] at hs
      split at hs
      · obtain rfl := Option.some.inj hs
        exact ⟨fun i => (hnodes i).1, fun i => (hnodes i).2.1, fun i => (hnodes i).2.2,
          h.votes, h.voteReplies, h.heartbeats, h.appends⟩
      · exact absurd hs (by simp)

theorem addressed_run (hr : Execution.Run (Cluster.occur cfg) (Cluster.init cfg) w) :
    Addressed cfg w := by
  refine Execution.Run.invariant hr ?_ fun _ _ _ _ h hs => addressed_occur h hs
  exact ⟨fun _ => rfl, fun _ => rfl, fun _ => Or.inl rfl, fun _ h => absurd h List.not_mem_nil,
    fun _ h => absurd h List.not_mem_nil, fun _ h => absurd h List.not_mem_nil,
    fun _ h => absurd h List.not_mem_nil⟩

/-- A request of `i` to `peer` has been made. -/
def Asks (w : Cluster ω) (i peer : NodeID) : Prop :=
  (∃ c ∈ w.voteCalls, c.caller = i ∧ c.peer = peer) ∨ ∃ c ∈ w.appendCalls, c.caller = i ∧ c.peer = peer

omit [Journal ω] in
theorem Addressed.asks {i peer : NodeID} (h : Addressed cfg w) (ha : Asks w i peer) :
    Between cfg i peer := by
  rcases ha with ⟨c, hc, rfl, rfl⟩ | ⟨c, hc, rfl, rfl⟩
  · exact h.votes c hc
  · exact (h.appends c hc).1

/--
**Everybody can be reached.** The flags of a member are accepted and give the node the
peers of the model. At any moment of any run of the nodes, restarts included, the member
sends clients to the HTTP address of the server that it takes for the leader, if it takes
one for it. Whomever it makes a request to is another server, and at any moment of any run
of the transport, calls of `getConn` for that server either fail to connect to its gRPC
address or have a connection to it.
-/
theorem deployment_addressed {wal : NodeID → Option ω}
    (hr : Execution.Run (Cluster.occur (r.config wal)) (Cluster.init (r.config wal)) w)
    (hm : m ∈ r.members) : ∃ s, parse (r.flags f m) = .ok s ∧
      s.nodeID = (w.nodes m.id).id ∧ s.peers = (w.nodes m.id).peers ∧
      ((w.nodes m.id).leaderID ≠ "" → ∃ q ∈ r.members, q.id = (w.nodes m.id).leaderID ∧
        (w.nodes m.id).redirectToLeader (fun i => s.peerHTTPAddrs.lookup i) = .to q.id q.httpAddr) ∧
      ∀ peer, Asks w m.id peer → ∃ q ∈ r.members, q.id = peer ∧ q.id ≠ m.id ∧
        ∀ p, Execution.Run Pool.act (newGRPCTransport s.peerGRPCAddrs) p →
          ∀ c ∈ p.calls, c.target = q.id → ∀ closes,
            (∀ conn, c.phase = .returned (.ok conn) closes → p.made[conn]? = some (q.id, q.grpcAddr)) ∧
            ∀ e, c.phase = .returned (.error e) closes → ∃ err, e = .connect q.id q.grpcAddr err := by
  have h := addressed_run hr
  refine ⟨r.settings f m, r.parse_flags f hm, (h.ids m.id).symm, (h.peers m.id).symm, ?_, ?_⟩
  · intro hne
    obtain ⟨q, hq, hhint⟩ := List.mem_map.mp ((h.hints m.id).resolve_left hne)
    refine ⟨q, hq, hhint, ?_⟩
    have haddr : (r.settings f m).peerHTTPAddrs.lookup q.id = some q.httpAddr :=
      lookup_addrMap r.nodup Member.httpAddr hq
    unfold Node.redirectToLeader
    rw [if_neg hne, ← hhint]
    simp only [haddr]
  · intro peer hasks
    obtain ⟨q, hq, rfl⟩ := List.mem_map.mp (h.asks hasks).2
    have haddr : (r.settings f m).peerGRPCAddrs.lookup q.id = some q.grpcAddr :=
      lookup_addrMap (r.nodup_others m.id) Member.grpcAddr hq
    obtain ⟨hmem, hne⟩ := Roster.mem_others.mp hq
    refine ⟨q, hmem, rfl, hne, ?_⟩
    intro p hp c hc htarget closes
    obtain ⟨haddrs, hblames⟩ := blames_run hp
    constructor
    · intro conn hphase
      obtain ⟨⟨addr, hmade, hlookup⟩, _⟩ := (tight_run hp).2.given c hc conn closes hphase
      rw [haddrs, htarget, haddr] at hlookup
      rw [hmade, htarget, Option.some.inj hlookup]
    · intro e hphase
      rcases hblames c hc e closes hphase with ⟨_, hnone⟩ | ⟨addr, err, hlookup, rfl⟩
      · rw [htarget, haddr] at hnone
        exact absurd hnone (by simp)
      · rw [htarget, haddr] at hlookup
        exact ⟨err, by rw [htarget, Option.some.inj hlookup]⟩

/-- The first three servers of `docker-compose.yml`. -/
def composeMembers : List Member :=
  [⟨"node-1", "node-1:9090", "node-1:8080"⟩, ⟨"node-2", "node-2:9090", "node-2:8080"⟩,
    ⟨"node-3", "node-3:9090", "node-3:8080"⟩]

instance (s : String) : Decidable (Listable s) :=
  decidable_of_iff (trimSpace s.toList = s.toList ∧ ',' ∉ s.toList)
    ⟨fun h => ⟨h.1, h.2⟩, fun h => ⟨h.trimmed, h.comma⟩⟩

theorem nodup_compose : (composeMembers.map Member.id).Nodup := by decide

theorem id_listable_compose : ∀ m ∈ composeMembers, Listable m.id ∧ '=' ∉ m.id.toList := by
  decide

theorem addr_listable_compose : ∀ m ∈ composeMembers, Listable m.grpcAddr ∧ Listable m.httpAddr := by
  decide

def compose : Roster :=
  ⟨composeMembers, nodup_compose, by decide, id_listable_compose, addr_listable_compose⟩

/-- `node-1` is elected, and `node-2` hears from it. -/
def composeEvents : List (Occurrence OneFile) :=
  [.event (.startElection "node-1"), .event (.requestVote 0), .event (.voteReply 0),
    .event (.sendHeartbeats "node-1"), .event (.readHeartbeat 0), .event (.appendEntries 0)]

def composeConfig : Config OneFile := compose.config fun _ => none

/-- Then `node-2` sends clients to `node-1`. -/
theorem deployment_addressed_compose : ∃ w s,
    Execution.exec (Cluster.occur composeConfig) (Cluster.init composeConfig) composeEvents = some w ∧
    parse (compose.flags {} ⟨"node-2", "node-2:9090", "node-2:8080"⟩) = .ok s ∧
    s.peers = ["node-1", "node-3"] ∧
    (w.nodes "node-2").redirectToLeader (fun i => s.peerHTTPAddrs.lookup i) = .to "node-1" "node-1:8080" := by
  obtain ⟨w, hx, hhint, hpeers⟩ :
      ∃ w ∈ Execution.exec (Cluster.occur composeConfig) (Cluster.init composeConfig) composeEvents,
        (w.nodes "node-2").leaderID = "node-1" ∧ (w.nodes "node-2").peers = ["node-1", "node-3"] := by
    decide +kernel
  obtain ⟨s, hparse, _, hs, hredirect, _⟩ := deployment_addressed (r := compose) (f := {})
    (m := ⟨"node-2", "node-2:9090", "node-2:8080"⟩) (Execution.run_of_exec hx)
    (List.mem_cons_of_mem _ List.mem_cons_self)
  obtain ⟨q, hq, hid, hto⟩ := hredirect (by rw [hhint]; decide)
  have hq' : q.id = "node-1" := hid.trans hhint
  have haddr : ∀ m ∈ composeMembers, m.id = "node-1" → m.httpAddr = "node-1:8080" := by decide
  exact ⟨w, s, hx, hparse, hs.trans hpeers, by rw [hto, hq', haddr q hq hq']⟩

end GammaFlow.Startup
