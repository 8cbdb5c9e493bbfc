import GammaFlow.Storage.TornWrite
import GammaFlow.Raft.Lockstep
import GammaFlow.Raft.Restart

/-!
# Clusters on disk

The nodes of a cluster with their write-ahead logs in files of bytes, as `NewWAL`, `Append`
and `Replay` keep them. A node may stop at any time: between two appends, or some bytes into
one. Its next process opens what is left of the files and replays it.

If a crash leaves none of the append it falls into, or at least the header of it, the bytes
always hold exactly the records that were appended, whatever files they lie in, and the
cluster behaves as one whose logs are lists of records (`disk_refines`). So what is known of
those holds down to the bytes (`disk_election_safety`).
-/

namespace GammaFlow.Raft

open GammaFlow.Storage

variable {J : Json}

/-- A write-ahead log in files of bytes. -/
structure Disk (J : Json) where
  files : WalFiles
  deriving DecidableEq

namespace Disk

instance : Journal (Disk J) where
  append d r := (⟨d.files.append J r⟩, true)

/-- `NewWAL` on an empty directory. -/
def empty : Disk J := ⟨WalFiles.newWAL []⟩

/-- What a process leaves that stops in a row of appends, perhaps some bytes into the next. -/
def left (d : Disk J) (rs : List WalRecord) (appends : Nat) (bytes : Option Nat) : List Bytes :=
  let d' := Journal.appendAll d (rs.take appends)
  match rs[appends]?, bytes with
  | some r, some k => d'.files.tear J r k
  | _, _ => d'.files.dir

end Disk

/-- `NewWAL`, `NewNode`, `Replay` and `Start`, or `none` if `Replay` panics. -/
def Config.reboot (cfg : Config (Disk J)) (i : NodeID) (dir : List Bytes) :
    Option (Node (Disk J)) :=
  ((WalFiles.newWAL dir).replay J).map fun (files, r) =>
    ((Node.newNode i (cfg.peers i) (some ⟨files⟩)).replay r).start

/-- An event, or a crash of a node: idle, or in the course of an event. -/
inductive DiskHappening where
  | event (ev : Event)
  | crash (i : NodeID) (during : Option Event) (appends : Nat) (bytes : Option Nat)
  deriving DecidableEq, Repr

namespace Cluster

/-- The records that `i` would append in the course of an event. -/
def inTurn {ω : Type} [Journal ω] (cfg : Config ω) (w : Cluster ω) (i : NodeID) :
    Option Event → List WalRecord
  | none => []
  | some ev => if (w.act cfg ev).isSome then w.writes i ev else []

def undergoDisk (cfg : Config (Disk J)) (w : Cluster (Disk J)) :
    DiskHappening → Option (Cluster (Disk J))
  | .event ev => w.act cfg ev
  | .crash i during appends bytes =>
      match (w.nodes i).wal with
      | none => none
      | some d =>
          if i ∈ cfg.ids then
            (cfg.reboot i (d.left (w.inTurn cfg i during) appends bytes)).map fun n =>
              { w.setNode i n with applying := Function.update w.applying i none }
          else none

end Cluster

/-- The header of the record can hold the length of its payload. -/
def Fits (J : Json) (r : WalRecord) : Prop := (J.marshal r).length < 2 ^ 32 - 12

/--
Every record that is appended fits, and a crash in the middle of an append has written
nothing of the record or at least the whole header.
-/
def Clean (cfg : Config (Disk J)) (w : Cluster (Disk J)) : DiskHappening → Prop
  | .event ev => ∀ i ∈ cfg.ids, ∀ r ∈ w.writes i ev, Fits J r
  | .crash i during _ bytes =>
      (∀ r ∈ w.inTurn cfg i during, Fits J r) ∧ ∀ k ∈ bytes, k = 0 ∨ 8 ≤ k

instance (J : Json) (r : WalRecord) : Decidable (Fits J r) := inferInstanceAs (Decidable (_ < _))

instance (cfg : Config (Disk J)) (w : Cluster (Disk J)) : ∀ x, Decidable (Clean cfg w x)
  | .event ev => inferInstanceAs (Decidable (∀ i ∈ cfg.ids, ∀ r ∈ w.writes i ev, Fits J r))
  | .crash i during _ bytes => inferInstanceAs
      (Decidable ((∀ r ∈ w.inTurn cfg i during, Fits J r) ∧ ∀ k ∈ bytes, k = 0 ∨ 8 ≤ k))

/-! ## What a crash leaves -/

/-- The records that have reached the disk when a process stops. -/
def survivors (J : Json) (rs : List WalRecord) (appends : Nat) (bytes : Option Nat) :
    List WalRecord :=
  rs.take (match rs[appends]?, bytes with
    | some r, some k => if (J.encode r).length ≤ k then appends + 1 else appends
    | _, _ => appends)

/-- Records that fit, as such. -/
theorem exists_records {rs : List WalRecord} (h : ∀ r ∈ rs, Fits J r) :
    ∃ ss : List J.Record, plain ss = rs := by
  induction rs with
  | nil => exact ⟨[], rfl⟩
  | cons r rs ih =>
      obtain ⟨ss, hss⟩ := ih fun r hr => h r (List.mem_cons_of_mem _ hr)
      exact ⟨⟨r, h r List.mem_cons_self⟩ :: ss, by rw [plain, List.map_cons]; exact congrArg _ hss⟩

theorem appendAll_plain (ss : List J.Record) : ∀ d : Disk J,
    (Journal.appendAll d (plain ss)).files = d.files.appendAll J ss := by
  induction ss with
  | nil => intro d; rfl
  | cons s ss ih => intro d; exact ih ⟨d.files.append J s⟩

theorem holds_appendAll {d : Disk J} {rs : List J.Record} (h : d.files.Holds rs)
    {ss : List WalRecord} (hss : ∀ r ∈ ss, Fits J r) :
    ∃ rs' : List J.Record, (Journal.appendAll d ss).files.Holds rs' ∧
      plain rs' = plain rs ++ ss := by
  obtain ⟨ts, rfl⟩ := exists_records hss
  exact ⟨rs ++ ts, by rw [appendAll_plain]; exact h.appendAll ts, plain_append rs ts⟩

/-- The next process finds what was there before, with the torn append gone. -/
theorem replay_dir {w : WalFiles} {rs : List J.Record} (h : w.Holds rs) :
    ∃ w' fs, (WalFiles.newWAL w.dir).replay J = some (w', Storage.replay fs) ∧
      w'.Holds rs ∧ fs.flatten = plain rs := by
  obtain ⟨fs, f, hold, hf, rfl⟩ := h
  have hreplay : (WalFiles.newWAL (w.older ++ [encodeAll f ++ []])).replay J = _ :=
    replay_of_short hold (by decide)
  rw [List.append_nil, ← hf] at hreplay
  refine ⟨_, _, hreplay, ?_, flatten_plain fs f⟩
  rw [WalFiles.newWAL_concat]
  exact ⟨fs, f, hold, hf, rfl⟩

/-- However many bytes were written, only one to seven are in the way of the next append. -/
theorem replay_tear {w : WalFiles} {rs : List J.Record} (h : w.Holds rs) {r : J.Record}
    (k : Nat) : ∃ w' fs rs', (WalFiles.newWAL (w.tear J r k)).replay J
        = some (w', Storage.replay fs) ∧ (k = 0 ∨ 8 ≤ k → w'.Holds rs') ∧ fs.flatten = plain rs' ∧
      rs' = if (J.encode r).length ≤ k then rs ++ [r] else rs := by
  by_cases hlen : (J.encode r).length ≤ k
  · -- all of it was written
    have hall : w.tear J r k = (w.append J r).dir := by
      rw [WalFiles.tear_eq_room, List.take_of_length_le hlen]
      rfl
    obtain ⟨w', fs, hreplay, hholds, hflat⟩ :=
      replay_dir (WalFiles.Holds.append_of_room (r := r) (h.room _))
    rw [if_pos hlen, hall]
    exact ⟨w', fs, _, hreplay, fun _ => hholds, hflat, rfl⟩
  · rw [if_neg hlen]
    obtain ⟨fs, f, hold, hf, rfl⟩ := h.room (4 + 4 + (J.marshal r).length + 4)
    have htear : w.tear J r k = (w.room (4 + 4 + (J.marshal r).length + 4)).older ++
        [encodeAll f ++ (J.encode r).take k] := by rw [WalFiles.tear_eq_room, hf]
    rw [htear]
    rcases Nat.lt_or_ge k 8 with hk | hk
    · refine ⟨_, _, _, replay_of_short hold (by rw [List.length_take]; omega), ?_,
        flatten_plain fs f, rfl⟩
      intro hzero
      obtain rfl : k = 0 := by omega
      rw [List.take_zero, WalFiles.newWAL_concat]
      exact ⟨fs, f, hold, List.append_nil _, rfl⟩
    · obtain ⟨w', hholds, hreplay⟩ := replay_of_damaged (f := f) hold
        (Or.inl (readRecord_torn r.2 hk (Nat.lt_of_not_le hlen)))
      exact ⟨w', _, _, hreplay, fun _ => hholds, flatten_plain fs f, rfl⟩

/-- **What is left of a log after a crash is replayed as the records that reached it.** -/
theorem replay_left {d : Disk J} {rs : List J.Record} (h : d.files.Holds rs)
    {ss : List WalRecord} (hss : ∀ r ∈ ss, Fits J r) (appends : Nat) (bytes : Option Nat) :
    ∃ w' fs, ∃ rs' : List J.Record, (WalFiles.newWAL (d.left ss appends bytes)).replay J
        = some (w', Storage.replay fs) ∧ ((∀ k ∈ bytes, k = 0 ∨ 8 ≤ k) → w'.Holds rs') ∧
      fs.flatten = plain rs' ∧ plain rs' = plain rs ++ survivors J ss appends bytes := by
  have hfirst : ∀ r ∈ ss.take appends, Fits J r := fun r hr => hss r (List.mem_of_mem_take hr)
  obtain ⟨rs₁, hholds, hrs₁⟩ := holds_appendAll h hfirst
  unfold Disk.left survivors
  dsimp only
  cases hr : ss[appends]? with
  | none =>
      obtain ⟨w', fs, hreplay, hholds, hflat⟩ := replay_dir hholds
      exact ⟨w', fs, rs₁, hreplay, fun _ => hholds, hflat, hrs₁⟩
  | some r =>
      cases bytes with
      | none =>
          obtain ⟨w', fs, hreplay, hholds, hflat⟩ := replay_dir hholds
          exact ⟨w', fs, rs₁, hreplay, fun _ => hholds, hflat, hrs₁⟩
      | some k =>
          have hfits := hss r (List.mem_of_getElem? hr)
          obtain ⟨w', fs, rs', hreplay, hholds, hflat, hrs'⟩ :=
            replay_tear hholds (r := ⟨r, hfits⟩) k
          refine ⟨w', fs, rs', hreplay, fun hbytes => hholds (hbytes k rfl), hflat, ?_⟩
          dsimp only
          rw [hrs']
          split
          · rw [plain_append, hrs₁, List.append_assoc, List.take_add_one, hr]
            rfl
          · exact hrs₁

/-! ## Records and bytes -/

/-- Replay of an orderly stream, however it is split. -/
theorem replay_congr {fs gs : List (List WalRecord)} (h : Orderly fs.flatten)
    (heq : fs.flatten = gs.flatten) : replay fs = replay gs := by
  have key : ∀ {fs : List (List WalRecord)}, Orderly fs.flatten → replay fs =
      ⟨lastTerm fs.flatten, lastVote fs.flatten, fs.flatten.filterMap WalRecord.entry?⟩ := by
    intro fs h
    have hvote : ∀ v ∈ fs.flatten.filterMap WalRecord.vote?, v ≠ "" := by
      intro v hv
      obtain ⟨t, ht⟩ := exists_vote hv
      exact h.named v t ht
    rw [← replay_term h.termsRise, ← replay_votedFor hvote, ← replay_entries]
  rw [key h, heq, ← key (heq ▸ h)]

/-- The two clusters have the same in memory, and the bytes hold the records. -/
structure Twin (cfg : Config (Disk J)) (w : Cluster (Disk J)) (v : Cluster OneFile) : Prop where
  memory : w.volatile = v.volatile
  logs : ∀ i ∈ cfg.ids, ∃ d e, ∃ rs : List J.Record, (w.nodes i).wal = some d ∧
    (v.nodes i).wal = some e ∧ d.files.Holds rs ∧ e.records = plain rs

/-- The members with logs of records. -/
def Config.recorded (cfg : Config (Disk J)) : Config OneFile := cfg.over fun _ => some Wal.empty

variable {cfg : Config (Disk J)} {w w' : Cluster (Disk J)} {v : Cluster OneFile}

theorem neverFails_disk : NeverFails (Disk J) := fun _ _ => rfl

theorem Twin.act (h : Twin cfg w v) (ev : Event) :
    (w.act cfg ev).map Cluster.volatile = (v.act cfg.recorded ev).map Cluster.volatile := by
  rw [Cluster.act_volatile neverFails_disk, Cluster.act_volatile neverFails_wal, h.memory]
  rfl

theorem Twin.writes (h : Twin cfg w v) (i : NodeID) (ev : Event) :
    w.writes i ev = v.writes i ev := by
  rw [← Cluster.writes_volatile, h.memory, Cluster.writes_volatile]

theorem Twin.inTurn (h : Twin cfg w v) (i : NodeID) (during : Option Event) :
    w.inTurn cfg i during = v.inTurn cfg.recorded i during := by
  cases during with
  | none => rfl
  | some ev =>
      have hsome : (w.act cfg ev).isSome = (v.act cfg.recorded ev).isSome := by
        rw [← Option.isSome_map, h.act ev, Option.isSome_map]
      unfold Cluster.inTurn
      dsimp only
      rw [hsome, h.writes]

theorem lastWrites_eq (cfg : Config OneFile) (v : Cluster OneFile) (i : NodeID)
    (during : Option Event) (appends : Nat) :
    v.lastWrites cfg i during appends = (v.inTurn cfg i during).take appends := by
  cases during with
  | none => exact List.take_nil.symm
  | some ev =>
      unfold Cluster.lastWrites Cluster.inTurn
      dsimp only
      split
      · rfl
      · exact List.take_nil.symm

/-- An event happens to both alike. -/
theorem twin_event (h : Twin cfg w v) {ev : Event} (hs : w.act cfg ev = some w')
    (hfits : ∀ i ∈ cfg.ids, ∀ r ∈ w.writes i ev, Fits J r) :
    ∃ v', v.act cfg.recorded ev = some v' ∧ Twin cfg w' v' := by
  have hact := h.act ev
  rw [hs] at hact
  obtain ⟨v', hv', hmem⟩ := Option.map_eq_some_iff.mp hact.symm
  refine ⟨v', hv', hmem.symm, ?_⟩
  intro i hi
  obtain ⟨d, e, rs, hd, he, hholds, hrec⟩ := h.logs i hi
  obtain ⟨rs', hholds', hrs'⟩ := holds_appendAll hholds (hfits i hi)
  refine ⟨_, Journal.appendAll e (v.writes i ev), rs', ?_, ?_, hholds', ?_⟩
  · rw [act_wal hs i, hd]; rfl
  · rw [act_wal hv' i, he]; rfl
  · rw [hrs', h.writes, ← hrec]
    exact Wal.records_appendAll _ e

/-- What a process starts with, but for its log, is what it replays. -/
theorem volatile_boot {ω : Type} (i : NodeID) (peers : List NodeID) (d : Option ω)
    (r : Replayed) : ((Node.newNode i peers d).replay r).start.volatile =
      ((Node.newNode i peers none).replay r).start := by
  have hreplay : ((Node.newNode i peers d).replay r).volatile =
      (Node.newNode i peers none).replay r := by
    unfold Node.replay
    dsimp only
    rw [apply_ite Node.volatile]
    rfl
  exact congrArg Node.start hreplay

theorem wal_boot {ω : Type} (i : NodeID) (peers : List NodeID) (d : Option ω) (r : Replayed) :
    ((Node.newNode i peers d).replay r).start.wal = d := by
  obtain ⟨log, he⟩ := (Node.newNode i peers d).replay_eq r
  rw [he]
  rfl

/-- A node takes the place of another on both sides. -/
theorem Twin.setNode (h : Twin cfg w v) (i : NodeID) {n : Node (Disk J)} {m : Node OneFile}
    (hmem : n.volatile = m.volatile) {d : Disk J} {e : OneFile} {rs : List J.Record}
    (hd : n.wal = some d) (he : m.wal = some e) (hholds : d.files.Holds rs)
    (hrec : e.records = plain rs) :
    Twin cfg { w.setNode i n with applying := Function.update w.applying i none }
      { v.setNode i m with applying := Function.update v.applying i none } where
  memory := by
    have happ : w.applying = v.applying := congrArg Cluster.applying h.memory
    have hset : (w.setNode i n).volatile = (v.setNode i m).volatile := by
      rw [Cluster.volatile_setNode, Cluster.volatile_setNode, h.memory, hmem]
    rw [happ]
    exact congrArg (fun u : Cluster Empty => { u with
      applying := Function.update v.applying i none }) hset
  logs j hj := by
    dsimp only
    by_cases hji : j = i
    · rw [hji, setNode_self, setNode_self]
      exact ⟨d, e, rs, hd, he, hholds, hrec⟩
    · rw [setNode_ne w i n hji, setNode_ne v i m hji]
      exact h.logs j hj

/-- A crash happens to both alike. -/
theorem twin_crash (h : Twin cfg w v) (hlaw : Lawful cfg.recorded v) {i : NodeID}
    (hi : i ∈ cfg.ids) {during : Option Event} {appends : Nat} {bytes : Option Nat}
    (hclean : Clean cfg w (.crash i during appends bytes)) :
    ∃ w' v' m, w.undergoDisk cfg (.crash i during appends bytes) = some w' ∧
      v.undergo cfg.recorded (.crash i during m) = some v' ∧ Twin cfg w' v' := by
  obtain ⟨hfits, hbytes⟩ := hclean
  obtain ⟨d, e, rs, hd, he, hholds, hrec⟩ := h.logs i hi
  obtain ⟨files, fs, rs', hreplay, hholds', hflat, hrs'⟩ := replay_left hholds hfits appends bytes
  obtain ⟨m, hm⟩ : ∃ m, survivors J (w.inTurn cfg i during) appends bytes =
      v.lastWrites cfg.recorded i during m :=
    ⟨_, by rw [lastWrites_eq, ← h.inTurn]; rfl⟩
  -- the records that are replayed, on both sides
  have hleft : (Journal.appendAll e (v.lastWrites cfg.recorded i during m)).records = plain rs' := by
    rw [hrs', hm, ← hrec]
    exact Wal.records_appendAll _ e
  have horderly : Orderly (plain rs') := by
    have ho := orderly_lastWrites hlaw (i := i) hi during m
    have hnode : (v.nodes i).records = e.records := by unfold Node.records; rw [he]
    rw [hnode, hrec, ← hm, ← hrs'] at ho
    exact ho
  have hsame : Storage.replay fs =
      Storage.replay (Journal.appendAll e (v.lastWrites cfg.recorded i during m)).files :=
    replay_congr (by rw [hflat]; exact horderly) (by rw [hflat, ← hleft]; rfl)
  have hboot : cfg.reboot i (d.left (w.inTurn cfg i during) appends bytes) =
      some ((Node.newNode i (cfg.peers i) (some ⟨files⟩)).replay (Storage.replay fs)).start := by
    rw [Config.reboot, hreplay]
    rfl
  refine ⟨_, _, m, ?_, ?_, h.setNode i (m := cfg.recorded.restart i _) ?_
    (wal_boot i (cfg.peers i) _ (Storage.replay fs))
    (wal_boot i _ _ _) (hholds' hbytes) hleft⟩
  · rw [Cluster.undergoDisk, hd]
    dsimp only
    rw [if_pos hi, hboot]
    rfl
  · rw [Cluster.undergo, he]
    exact if_pos hi
  · rw [Config.restart, volatile_boot, volatile_boot, hsame]
    rfl

theorem twin_init (hwal : ∀ i ∈ cfg.ids, cfg.wal i = some Disk.empty) :
    Twin cfg (Cluster.init cfg) (Cluster.init cfg.recorded) where
  memory := rfl
  logs i hi := ⟨Disk.empty, Wal.empty, [], hwal i hi, rfl, WalFiles.holds_newWAL, rfl⟩

/-- Whatever happens cleanly on disk happens to the cluster of records. -/
theorem twin_undergo (h : Twin cfg w v) (hlaw : Lawful cfg.recorded v) {x : DiskHappening}
    (hclean : Clean cfg w x) (hs : w.undergoDisk cfg x = some w') :
    ∃ y v', v.undergo cfg.recorded y = some v' ∧ Lawful cfg.recorded v' ∧ Twin cfg w' v' := by
  cases x with
  | event ev =>
      obtain ⟨v', hv', ht⟩ := twin_event h hs hclean
      exact ⟨.event ev, v', hv', lawful_step hlaw hv', ht⟩
  | crash i during appends bytes =>
      have hi : i ∈ cfg.ids := by
        rw [Cluster.undergoDisk] at hs
        split at hs
        · exact absurd hs (by simp)
        · split at hs
          · assumption
          · exact absurd hs (by simp)
      obtain ⟨w₁, v', m, hw₁, hv', ht⟩ := twin_crash h hlaw hi hclean
      rw [hs] at hw₁
      rw [Option.some.inj hw₁]
      exact ⟨.crash i during m, v', hv', (lawful_crash hlaw hv').1, ht⟩

/-- The cluster of records that goes along with a clean run. -/
theorem twin_run (h : Twin cfg w v) (hlaw : Lawful cfg.recorded v) {xs : List DiskHappening}
    (hclean : Execution.Always (Cluster.undergoDisk cfg) (fun w x _ => Clean cfg w x) w xs)
    (hx : Execution.exec (Cluster.undergoDisk cfg) w xs = some w') :
    ∃ v', Cluster.CrashRun cfg.recorded v v' ∧ Lawful cfg.recorded v' ∧ Twin cfg w' v' := by
  refine Execution.Always.invariant (I := fun _ w' => ∃ v', Cluster.CrashRun cfg.recorded v v' ∧
    Lawful cfg.recorded v' ∧ Twin cfg w' v') ⟨v, Relation.ReflTransGen.refl, hlaw, h⟩ ?_ hclean hx
  rintro _ w₁ x w₂ _ ⟨v₁, hr, hlaw₁, ht₁⟩ hx hs
  obtain ⟨y, v₂, hv₂, hlaw₂, ht₂⟩ := twin_undergo ht₁ hlaw₁ hx hs
  exact ⟨v₂, hr.tail ⟨y, hv₂⟩, hlaw₂, ht₂⟩

/--
**The bytes refine the records, crashes included.** After a clean run of a cluster on disk
there is a run with crashes of the cluster of records that has the same in memory, and every
log holds exactly the records of its twin. From there every member recovers from every clean
crash: `Replay` does not panic, and the cluster has a twin again.
-/
theorem disk_refines (hwal : ∀ i ∈ cfg.ids, cfg.wal i = some Disk.empty)
    {xs : List DiskHappening} (hclean : Execution.Always (Cluster.undergoDisk cfg)
      (fun w x _ => Clean cfg w x) (Cluster.init cfg) xs)
    (hx : Execution.exec (Cluster.undergoDisk cfg) (Cluster.init cfg) xs = some w) :
    ∃ v, Cluster.CrashRun cfg.recorded (Cluster.init cfg.recorded) v ∧ Twin cfg w v ∧
      ∀ i ∈ cfg.ids, ∀ during appends bytes, Clean cfg w (.crash i during appends bytes) →
        ∃ w' v', w.undergoDisk cfg (.crash i during appends bytes) = some w' ∧
          Cluster.CrashRun cfg.recorded v v' ∧ Twin cfg w' v' := by
  obtain ⟨v, hr, hlaw, ht⟩ := twin_run (twin_init hwal) (lawful_init fun _ _ => rfl) hclean hx
  refine ⟨v, hr, ht, ?_⟩
  intro i hi during appends bytes hclean
  obtain ⟨w', v', m, hw', hv', ht'⟩ := twin_crash ht hlaw hi hclean
  exact ⟨w', v', hw', Relation.ReflTransGen.single ⟨_, hv'⟩, ht'⟩

/-- A cluster of three on disk. -/
def diskABC : Config (Disk plainJson) := abc (some Disk.empty)

/-- Node `b` is elected by `a`. -/
def electEvents : List DiskHappening :=
  [.event (.startElection "b"), .event (.requestVote 0), .event (.voteReply 0)]

/-- Node `a` is asked for its vote and stops nine bytes into the record of it. -/
theorem disk_refines_abc : ∃ w w' v', Execution.exec (Cluster.undergoDisk diskABC)
      (Cluster.init diskABC) [.event (.startElection "b")] = some w ∧
    w.undergoDisk diskABC (.crash "a" (some (.requestVote 0)) 1 (some 9)) = some w' ∧
    Cluster.CrashRun diskABC.recorded (Cluster.init diskABC.recorded) v' ∧ Twin diskABC w' v' := by
  obtain ⟨w, hx, hcrash⟩ : ∃ w ∈ Execution.exec (Cluster.undergoDisk diskABC) (Cluster.init diskABC)
      [.event (.startElection "b")],
      Clean diskABC w (.crash "a" (some (.requestVote 0)) 1 (some 9)) := by
    decide +kernel
  have hclean : Execution.Always (Cluster.undergoDisk diskABC) (fun w x _ => Clean diskABC w x)
      (Cluster.init diskABC) [.event (.startElection "b")] := by
    decide +kernel
  obtain ⟨v, hv, _, hrecover⟩ := disk_refines (fun _ _ => rfl) hclean hx
  obtain ⟨w', v', hw', hv', ht⟩ := hrecover "a" (by decide) _ _ _ hcrash
  exact ⟨w, w', v', hx, hw', hv.trans hv', ht⟩

/-- Leaders of clusters of records. -/
theorem leader_unique {u u' : Cluster OneFile} {c : Config OneFile} (h : Lawful c u)
    (hr : Cluster.CrashRun c u u') {i j : NodeID} (hi : i ∈ c.ids) (hj : j ∈ c.ids)
    (hli : (u.nodes i).state = .leader) (hlj : (u'.nodes j).state = .leader)
    (hterm : (u.nodes i).currentTerm = (u'.nodes j).currentTerm) : i = j := by
  obtain ⟨h', he⟩ := lawful_run h hr
  have hqi := isQuorum_voted_mono he ((h.nodes i hi).elected hli)
  have hqj := (h'.nodes j hj).elected hlj
  obtain ⟨p, ⟨hp, hpi⟩, _, hpj⟩ := c.quorum.inter hqi hqj
  rw [hterm] at hpi
  exact (h'.nodes p hp).sworn.2.orderly.unique i j _ hpi hpj

/--
**Election safety down to the bytes.** In a clean run of a cluster on disk, no two members are
ever leader of the same term, at the same moment or at different ones.
-/
theorem disk_election_safety (hwal : ∀ i ∈ cfg.ids, cfg.wal i = some Disk.empty)
    {xs ys : List DiskHappening}
    (hxs : Execution.Always (Cluster.undergoDisk cfg) (fun w x _ => Clean cfg w x)
      (Cluster.init cfg) xs)
    (hx : Execution.exec (Cluster.undergoDisk cfg) (Cluster.init cfg) xs = some w)
    (hys : Execution.Always (Cluster.undergoDisk cfg) (fun w x _ => Clean cfg w x) w ys)
    (hy : Execution.exec (Cluster.undergoDisk cfg) w ys = some w') {i j : NodeID}
    (hi : i ∈ cfg.ids) (hj : j ∈ cfg.ids) (hli : (w.nodes i).state = .leader)
    (hlj : (w'.nodes j).state = .leader)
    (hterm : (w.nodes i).currentTerm = (w'.nodes j).currentTerm) : i = j := by
  obtain ⟨v, _, hlaw, ht⟩ := twin_run (twin_init hwal) (lawful_init fun _ _ => rfl) hxs hx
  obtain ⟨v', hr, _, ht'⟩ := twin_run ht hlaw hys hy
  have hv : (w.nodes i).volatile = (v.nodes i).volatile :=
    congrFun (congrArg Cluster.nodes ht.memory) i
  have hv' : (w'.nodes j).volatile = (v'.nodes j).volatile :=
    congrFun (congrArg Cluster.nodes ht'.memory) j
  refine leader_unique hlaw hr (i := i) (j := j) hi hj ?_ ?_ ?_
  · exact (congrArg Node.state hv).symm.trans hli
  · exact (congrArg Node.state hv').symm.trans hlj
  · exact ((congrArg Node.currentTerm hv).symm.trans hterm).trans (congrArg Node.currentTerm hv')

/-- Node `b` stops as leader, and whoever leads its term afterwards is `b`. -/
theorem disk_election_safety_abc : ∃ w w', Execution.exec (Cluster.undergoDisk diskABC)
      (Cluster.init diskABC) electEvents = some w ∧ (w.nodes "b").state = .leader ∧
    (w.nodes "b").currentTerm = 1 ∧ w.undergoDisk diskABC (.crash "b" none 0 none) = some w' ∧
    ∀ j ∈ diskABC.ids, (w'.nodes j).state = .leader → (w'.nodes j).currentTerm = 1 → j = "b" := by
  obtain ⟨w, hx, hlead, hterm, hcrash⟩ : ∃ w ∈ Execution.exec (Cluster.undergoDisk diskABC)
      (Cluster.init diskABC) electEvents, (w.nodes "b").state = .leader ∧
      (w.nodes "b").currentTerm = 1 ∧ Clean diskABC w (.crash "b" none 0 none) := by
    decide +kernel
  have hclean : Execution.Always (Cluster.undergoDisk diskABC) (fun w x _ => Clean diskABC w x)
      (Cluster.init diskABC) electEvents := by
    decide +kernel
  obtain ⟨v, _, hlaw, ht⟩ := twin_run (twin_init fun _ _ => rfl) (lawful_init fun _ _ => rfl) hclean hx
  obtain ⟨w', v', m, hw', _, _⟩ := twin_crash ht hlaw (i := "b") (by decide) hcrash
  have hy : Execution.exec (Cluster.undergoDisk diskABC) w [.crash "b" none 0 none] = some w' :=
    Execution.exec_cons.mpr ⟨w', hw', rfl⟩
  have hys : Execution.Always (Cluster.undergoDisk diskABC) (fun w x _ => Clean diskABC w x) w
      [.crash "b" none 0 none] := fun _ _ => ⟨hcrash, trivial⟩
  refine ⟨w, w', hx, hlead, hterm, hw', ?_⟩
  intro j hj hl ht'
  exact (disk_election_safety (fun _ _ => rfl) hclean hx hys hy (by decide) hj hlead hl
    (by rw [hterm, ht'])).symm

end GammaFlow.Raft
