import Mathlib.Data.List.Nodup
import GammaFlow.Lib.Execution
import GammaFlow.Raft.Types

/-!
# Cached connections

`GRPCTransport` keeps one connection a peer, made when it is first needed. `getConn` looks for
it under the read lock, and if there is none looks again under the write lock, makes one and
caches it. Any number of goroutines do this at once, and `Close` may come at any time.

An event is one critical section. The retries of `getConn` sleep with the write lock held, so
they are one section too. What is proved is that no connection is ever lost: whatever the
interleaving, the open ones are those in the cache, and between two calls of `Close` everybody
who asks for a peer gets the same one (`connections_tight`).
-/

namespace GammaFlow.Transport

open GammaFlow.Raft

/-- Why `getConn` fails. -/
inductive ConnError where
  | unknownPeer (target : NodeID)
  | connect (target : NodeID) (addr err : String)
  deriving DecidableEq, Repr

def ConnError.error : ConnError → String
  | .unknownPeer target => "unknown peer: " ++ target
  | .connect target addr err => "connect to " ++ target ++ " (" ++ addr ++ "): " ++ err

/-- A call of `getConn`: it has missed the cache, or has returned, after so many `Close`s. -/
inductive Phase where
  | missed
  | returned (result : Except ConnError Nat) (closes : Nat)

structure Call where
  target : NodeID
  phase : Phase

/-- The transport, with the connections it has made so far, numbered, and the calls. -/
structure Pool where
  addrs : List (NodeID × String)
  conns : List (NodeID × Nat)
  /-- For whom, and to which address, each connection was made. -/
  made : List (NodeID × String)
  closed : List Nat
  closes : Nat
  calls : List Call

def newGRPCTransport (addrs : List (NodeID × String)) : Pool := ⟨addrs, [], [], [], 0, []⟩

/-- The retry loop from attempt `a` on: the error that it leaves, if any. -/
def retry (newClient : Nat → Option String) : Nat → Nat → Option String → Option String
  | 0, _, err => err
  | left + 1, a, _ =>
      match newClient a with
      | none => none
      | some err => retry newClient left (a + 1) (some err)

/-- A connection is made and cached. -/
def Pool.cache (p : Pool) (target : NodeID) (addr : String) : Pool :=
  { p with
    conns := (target, p.made.length) :: p.conns
    made := p.made ++ [(target, addr)] }

/-- `getConn` with the write lock. -/
def Pool.dial (p : Pool) (target : NodeID) (newClient : Nat → Option String) :
    Pool × Except ConnError Nat :=
  match p.conns.lookup target with
  | some conn => (p, .ok conn)
  | none =>
      match p.addrs.lookup target with
      | none => (p, .error (.unknownPeer target))
      | some addr =>
          match retry newClient 3 0 none with
          | some err => (p, .error (.connect target addr err))
          | none => (p.cache target addr, .ok p.made.length)

inductive Event where
  /-- `getConn` is called and looks into the cache with the read lock. -/
  | getConn (target : NodeID)
  /-- Call `k` gets the write lock; `newClient` is what each attempt returns. -/
  | lock (k : Nat) (newClient : Nat → Option String)
  | close

def Pool.act (p : Pool) : Event → Option Pool
  | .getConn target =>
      match p.conns.lookup target with
      | some conn => some { p with calls := p.calls ++ [⟨target, .returned (.ok conn) p.closes⟩] }
      | none => some { p with calls := p.calls ++ [⟨target, .missed⟩] }
  | .lock k newClient =>
      match p.calls[k]? with
      | some ⟨target, .missed⟩ =>
          let (p', result) := p.dial target newClient
          some { p' with calls := p'.calls.set k ⟨target, .returned result p'.closes⟩ }
      | _ => none
  | .close => some { p with
      conns := []
      closed := p.closed ++ p.conns.map Prod.snd
      closes := p.closes + 1 }

/-! ## Sections -/

variable {p p' : Pool} {ev : Event}

/-- **What the section with the write lock does.** It finds a connection, or fails, or makes one. -/
inductive Dialed (p : Pool) (target : NodeID) : Pool → Except ConnError Nat → Prop
  | found (conn : Nat) : p.conns.lookup target = some conn → Dialed p target p (.ok conn)
  | unknown : p.conns.lookup target = none → p.addrs.lookup target = none →
      Dialed p target p (.error (.unknownPeer target))
  | failed (addr err : String) : p.conns.lookup target = none → p.addrs.lookup target = some addr →
      Dialed p target p (.error (.connect target addr err))
  | made (addr : String) : p.conns.lookup target = none → p.addrs.lookup target = some addr →
      Dialed p target (p.cache target addr) (.ok p.made.length)

theorem dialed (p : Pool) (target : NodeID) (newClient : Nat → Option String) :
    Dialed p target (p.dial target newClient).1 (p.dial target newClient).2 := by
  unfold Pool.dial
  split
  · rename_i conn hconn; exact .found conn hconn
  rename_i hconn
  split
  · rename_i haddr; exact .unknown hconn haddr
  rename_i addr haddr
  split
  · rename_i err _; exact .failed addr err hconn haddr
  · exact .made addr hconn haddr

/-- **What an event does.** -/
inductive Acts (p : Pool) : Pool → Prop
  | hit (target : NodeID) (conn : Nat) : p.conns.lookup target = some conn →
      Acts p { p with calls := p.calls ++ [⟨target, .returned (.ok conn) p.closes⟩] }
  | miss (target : NodeID) : Acts p { p with calls := p.calls ++ [⟨target, .missed⟩] }
  | locked (k : Nat) (target : NodeID) (q : Pool) (result : Except ConnError Nat) :
      Dialed p target q result →
      Acts p { q with calls := q.calls.set k ⟨target, .returned result q.closes⟩ }
  | closed : Acts p { p with
      conns := [], closed := p.closed ++ p.conns.map Prod.snd, closes := p.closes + 1 }

theorem acts_of_act (hs : p.act ev = some p') : Acts p p' := by
  cases ev with
  | getConn target =>
      rw [Pool.act] at hs
      split at hs
      · rename_i conn hconn
        obtain rfl := Option.some.inj hs
        exact .hit target conn hconn
      · obtain rfl := Option.some.inj hs
        exact .miss target
  | lock k newClient =>
      rw [Pool.act] at hs
      split at hs
      · rename_i target _
        obtain rfl := Option.some.inj hs
        exact .locked k target _ _ (dialed p target newClient)
      · exact absurd hs (by simp)
  | close =>
      obtain rfl := Option.some.inj hs
      exact .closed

/-! ## The invariant -/

/-- The connection was made for the peer, to the address the peer has. -/
def Pool.For (p : Pool) (target : NodeID) (conn : Nat) : Prop :=
  ∃ addr, p.made[conn]? = some (target, addr) ∧ p.addrs.lookup target = some addr

/-- Nothing is lost: the open connections are the cached ones, one a peer. -/
structure Tight (p : Pool) : Prop where
  cached : ∀ conn, conn ∈ p.conns.map Prod.snd ↔ conn < p.made.length ∧ conn ∉ p.closed
  aimed : ∀ target conn, (target, conn) ∈ p.conns → p.For target conn
  unique : (p.conns.map Prod.fst).Nodup
  made : ∀ conn ∈ p.closed, conn < p.made.length

/-- What these calls have returned is for their peers, and the same between two `Close`s. -/
structure Served (p : Pool) (calls : List Call) : Prop where
  given : ∀ c ∈ calls, ∀ conn closes, c.phase = .returned (.ok conn) closes →
    p.For c.target conn ∧ closes ≤ p.closes ∧
      (closes = p.closes → p.conns.lookup c.target = some conn)
  same : ∀ c ∈ calls, ∀ c' ∈ calls, c.target = c'.target → ∀ conn conn' closes,
    c.phase = .returned (.ok conn) closes → c'.phase = .returned (.ok conn') closes → conn = conn'

theorem mem_of_lookup {β : Type} {target : NodeID} {v : β} {l : List (NodeID × β)}
    (h : l.lookup target = some v) : (target, v) ∈ l := by
  obtain ⟨l₁, l₂, rfl, _⟩ := List.lookup_eq_some_iff.mp h
  simp

/-- A call that has returned what is in the cache now fits in with the others. -/
theorem Served.add {calls calls' : List Call} (h : Served p calls) (c : Call)
    (hsub : ∀ x ∈ calls', x ∈ calls ∨ x = c) (hc : ∀ conn closes,
      c.phase = .returned (.ok conn) closes → p.For c.target conn ∧ closes = p.closes ∧
        p.conns.lookup c.target = some conn) : Served p calls' := by
  have hgiven : ∀ x ∈ calls', ∀ conn closes, x.phase = .returned (.ok conn) closes →
      p.For x.target conn ∧ closes ≤ p.closes ∧
        (closes = p.closes → p.conns.lookup x.target = some conn) := by
    intro x hx conn closes hphase
    rcases hsub x hx with hx | rfl
    · exact h.given x hx conn closes hphase
    · obtain ⟨hfor, rfl, hcached⟩ := hc conn closes hphase
      exact ⟨hfor, Nat.le_refl _, fun _ => hcached⟩
  refine ⟨hgiven, ?_⟩
  intro x hx y hy htarget conn conn' closes hconn hconn'
  -- two calls of the present have returned what the cache has
  have hnow : closes = p.closes → conn = conn' := by
    intro heq
    have hx' := (hgiven x hx conn closes hconn).2.2 heq
    have hy' := (hgiven y hy conn' closes hconn').2.2 heq
    rw [htarget, hy'] at hx'
    exact (Option.some.inj hx').symm
  rcases hsub x hx with hx | rfl
  · rcases hsub y hy with hy | rfl
    · exact h.same x hx y hy htarget conn conn' closes hconn hconn'
    · exact hnow (hc conn' closes hconn').2.1
  · exact hnow (hc conn closes hconn).2.1

theorem Pool.For.cache {target : NodeID} {conn : Nat} (h : p.For target conn) (t : NodeID)
    (a : String) : (p.cache t a).For target conn := by
  obtain ⟨addr, hmade, haddr⟩ := h
  refine ⟨addr, ?_, haddr⟩
  show (p.made ++ [(t, a)])[conn]? = _
  rw [List.getElem?_append_left (List.getElem?_eq_some_iff.mp hmade).1]
  exact hmade

theorem tight_cache {target : NodeID} {addr : String} (h : Tight p)
    (hnone : p.conns.lookup target = none) (haddr : p.addrs.lookup target = some addr) :
    Tight (p.cache target addr) := by
  refine ⟨?_, ?_, ?_, ?_⟩
  · intro conn
    show conn ∈ p.made.length :: p.conns.map Prod.snd ↔ conn < (p.made ++ [(target, addr)]).length ∧ _
    rw [List.mem_cons, h.cached, List.length_append, List.length_singleton]
    constructor
    · rintro (rfl | ⟨hlt, hopen⟩)
      · exact ⟨Nat.lt_succ_self _, fun hc => absurd (h.made _ hc) (Nat.lt_irrefl _)⟩
      · exact ⟨Nat.lt_succ_of_lt hlt, hopen⟩
    · rintro ⟨hlt, hopen⟩
      rcases Nat.lt_succ_iff_lt_or_eq.mp hlt with hlt | rfl
      · exact Or.inr ⟨hlt, hopen⟩
      · exact Or.inl rfl
  · intro t conn hmem
    rcases List.mem_cons.mp hmem with heq | hmem
    · injection heq with ht hconn
      rw [ht, hconn]
      exact ⟨addr, List.getElem?_concat_length, haddr⟩
    · exact (h.aimed t conn hmem).cache target addr
  · refine List.nodup_cons.mpr ⟨?_, h.unique⟩
    intro hmem
    obtain ⟨⟨t, c⟩, hin, rfl⟩ := List.mem_map.mp hmem
    exact absurd (List.lookup_eq_none_iff.mp hnone _ hin) (by simp)
  · intro conn hc
    show conn < (p.made ++ [_]).length
    rw [List.length_append]
    exact Nat.lt_add_right _ (h.made conn hc)

/-- Nobody who asked before minds. -/
theorem served_cache {target : NodeID} {addr : String} {calls : List Call} (h : Served p calls)
    (hnone : p.conns.lookup target = none) : Served (p.cache target addr) calls := by
  refine ⟨?_, h.same⟩
  intro c hc conn closes hphase
  obtain ⟨hfor, hle, hnow⟩ := h.given c hc conn closes hphase
  refine ⟨hfor.cache target addr, hle, fun heq => ?_⟩
  have hcached := hnow heq
  show ((target, p.made.length) :: p.conns).lookup c.target = some conn
  rw [List.lookup_cons]
  split
  · rename_i heq
    rw [eq_of_beq heq, hnone] at hcached
    exact absurd hcached (by simp)
  · exact hcached

/-- The section with the write lock keeps the pool tight, and the calls before it served. -/
theorem tight_dialed {target : NodeID} {q : Pool} {result : Except ConnError Nat}
    (hd : Dialed p target q result) (h : Tight p) (hcalls : Served p p.calls) :
    Tight q ∧ Served q q.calls ∧ ∀ conn, result = .ok conn →
      q.For target conn ∧ q.conns.lookup target = some conn := by
  cases hd with
  | found conn hconn =>
      refine ⟨h, hcalls, ?_⟩
      intro c hc
      obtain rfl : conn = c := by injection hc
      exact ⟨h.aimed _ _ (mem_of_lookup hconn), hconn⟩
  | unknown _ _ => exact ⟨h, hcalls, fun c hc => absurd hc (by simp)⟩
  | failed _ _ _ _ => exact ⟨h, hcalls, fun c hc => absurd hc (by simp)⟩
  | made addr hnone haddr =>
      refine ⟨tight_cache h hnone haddr, served_cache hcalls hnone, ?_⟩
      intro conn hc
      obtain rfl : p.made.length = conn := by injection hc
      exact ⟨⟨addr, List.getElem?_concat_length, haddr⟩, List.lookup_cons_self⟩

/-- **Every section keeps the pool tight and the calls served.** -/
theorem tight_step (hs : p.act ev = some p') (h : Tight p) (hcalls : Served p p.calls) :
    Tight p' ∧ Served p' p'.calls := by
  cases acts_of_act hs with
  | hit target conn hconn =>
      have hfor := h.aimed target conn (mem_of_lookup hconn)
      have hserved : Served p (p.calls ++ [⟨target, .returned (.ok conn) p.closes⟩]) := by
        refine hcalls.add ⟨target, .returned (.ok conn) p.closes⟩ (fun x hx => ?_) ?_
        · simpa using hx
        · rintro _ _ ⟨⟩
          exact ⟨hfor, rfl, hconn⟩
      exact ⟨⟨h.cached, h.aimed, h.unique, h.made⟩, hserved.given, hserved.same⟩
  | miss target =>
      have hserved : Served p (p.calls ++ [⟨target, .missed⟩]) := by
        refine hcalls.add ⟨target, .missed⟩ (fun x hx => ?_) fun _ _ h => absurd h (by simp)
        simpa using hx
      exact ⟨⟨h.cached, h.aimed, h.unique, h.made⟩, hserved.given, hserved.same⟩
  | locked k target q result hd =>
      obtain ⟨hq, hqcalls, hresult⟩ := tight_dialed hd h hcalls
      have hserved : Served q (q.calls.set k ⟨target, .returned result q.closes⟩) := by
        refine hqcalls.add _ (fun x hx => List.mem_or_eq_of_mem_set hx) ?_
        rintro conn _ ⟨⟩
        obtain ⟨hfor, hcached⟩ := hresult conn rfl
        exact ⟨hfor, rfl, hcached⟩
      exact ⟨⟨hq.cached, hq.aimed, hq.unique, hq.made⟩, hserved.given, hserved.same⟩
  | closed =>
      refine ⟨⟨?_, fun t c hc => absurd hc List.not_mem_nil, List.nodup_nil, ?_⟩, ?_, hcalls.same⟩
      · intro conn
        have := h.cached conn
        simp only [List.map_nil, List.not_mem_nil, List.mem_append, false_iff]
        rintro ⟨hlt, hopen⟩
        exact hopen (Or.inr (this.mpr ⟨hlt, fun hc => hopen (Or.inl hc)⟩))
      · intro conn hc
        rcases List.mem_append.mp hc with hc | hc
        · exact h.made conn hc
        · exact ((h.cached conn).mp hc).1
      · intro c hc conn closes hphase
        obtain ⟨hfor, hle, _⟩ := hcalls.given c hc conn closes hphase
        refine ⟨hfor, Nat.le_succ_of_le hle, fun heq => ?_⟩
        dsimp only at heq
        omega

theorem tight_run {addrs : List (NodeID × String)}
    (hr : Execution.Run Pool.act (newGRPCTransport addrs) p) : Tight p ∧ Served p p.calls := by
  refine Execution.Run.invariant hr ?_ ?_
  · refine ⟨⟨?_, fun t c hc => absurd hc List.not_mem_nil, List.nodup_nil,
      fun c hc => absurd hc List.not_mem_nil⟩, fun c hc => absurd hc List.not_mem_nil,
      fun c hc => absurd hc List.not_mem_nil⟩
    intro conn
    simp [newGRPCTransport]
  · intro p₁ ev p₂ _ h hs
    exact tight_step hs h.1 h.2

/-- If the call has failed, it was for want of an address or of a connection to it. -/
def Call.Blames (c : Call) (addrs : List (NodeID × String)) : Prop :=
  ∀ e closes, c.phase = .returned (.error e) closes →
    e = .unknownPeer c.target ∧ addrs.lookup c.target = none ∨
    ∃ addr err, addrs.lookup c.target = some addr ∧ e = .connect c.target addr err

theorem blames_dialed {target : NodeID} {q : Pool} {result : Except ConnError Nat}
    (hd : Dialed p target q result) : q.addrs = p.addrs ∧ q.calls = p.calls ∧
      ∀ closes, Call.Blames ⟨target, .returned result closes⟩ p.addrs := by
  cases hd with
  | found conn _ => exact ⟨rfl, rfl, fun _ e _ h => absurd h (by simp)⟩
  | unknown _ haddr =>
      refine ⟨rfl, rfl, ?_⟩
      rintro _ _ _ ⟨⟩
      exact Or.inl ⟨rfl, haddr⟩
  | failed addr err _ haddr =>
      refine ⟨rfl, rfl, ?_⟩
      rintro _ _ _ ⟨⟩
      exact Or.inr ⟨addr, err, haddr, rfl⟩
  | made addr _ _ => exact ⟨rfl, rfl, fun _ e _ h => absurd h (by simp)⟩

theorem blames_run {addrs : List (NodeID × String)}
    (hr : Execution.Run Pool.act (newGRPCTransport addrs) p) :
    p.addrs = addrs ∧ ∀ c ∈ p.calls, c.Blames addrs := by
  refine Execution.Run.invariant hr ⟨rfl, fun c hc => absurd hc List.not_mem_nil⟩ ?_
  intro p₁ ev p₂ _ h hs
  obtain ⟨rfl, hcalls⟩ := h
  cases acts_of_act hs with
  | hit target conn _ =>
      refine ⟨rfl, List.forall_mem_append.mpr ⟨hcalls, List.forall_mem_singleton.mpr ?_⟩⟩
      exact fun e _ h => absurd h (by simp)
  | miss target =>
      refine ⟨rfl, List.forall_mem_append.mpr ⟨hcalls, List.forall_mem_singleton.mpr ?_⟩⟩
      exact fun e _ h => absurd h (by simp)
  | locked k target q result hd =>
      obtain ⟨haddrs, hsame, hblames⟩ := blames_dialed hd
      refine ⟨haddrs, fun c hc => ?_⟩
      rcases List.mem_or_eq_of_mem_set hc with hc | rfl
      · exact hcalls c (hsame ▸ hc)
      · exact hblames _
  | closed => exact ⟨rfl, hcalls⟩

theorem lookup_of_mem {β : Type} {target : NodeID} {v : β} {l : List (NodeID × β)}
    (hnd : (l.map Prod.fst).Nodup) (h : (target, v) ∈ l) : l.lookup target = some v := by
  obtain ⟨l₁, l₂, rfl⟩ := List.append_of_mem h
  refine List.lookup_eq_some_iff.mpr ⟨l₁, l₂, rfl, ?_⟩
  intro x hx
  rw [List.map_append, List.map_cons] at hnd
  have hfst : x.1 ≠ target := (List.nodup_append.mp hnd).2.2 x.1 (List.mem_map_of_mem hx) target
    List.mem_cons_self
  simpa using hfst.symm

def Pool.Open (p : Pool) (conn : Nat) : Prop := conn < p.made.length ∧ conn ∉ p.closed

/--
**No connection is lost.** After any interleaving of calls of `getConn` and `Close`, a
connection is open exactly if it is cached for a peer, and no peer has two of them. What a
call has returned was made for its peer and to the peer's address; it is open as long as
`Close` was not called, and the same as any other call for that peer got meanwhile.
-/
theorem connections_tight {addrs : List (NodeID × String)}
    (hr : Execution.Run Pool.act (newGRPCTransport addrs) p) :
    (∀ conn, p.Open conn ↔ ∃ target, p.conns.lookup target = some conn) ∧
    (∀ target conn conn', p.Open conn → p.Open conn' → p.For target conn → p.For target conn' →
      conn = conn') ∧
    (∀ c ∈ p.calls, ∀ conn closes, c.phase = .returned (.ok conn) closes →
      p.For c.target conn ∧ (closes = p.closes → p.Open conn)) ∧
    (∀ c ∈ p.calls, ∀ c' ∈ p.calls, c.target = c'.target → ∀ conn conn' closes,
      c.phase = .returned (.ok conn) closes → c'.phase = .returned (.ok conn') closes →
      conn = conn') := by
  obtain ⟨h, hcalls⟩ := tight_run hr
  have hopen : ∀ conn, p.Open conn ↔ ∃ target, p.conns.lookup target = some conn := by
    intro conn
    rw [Pool.Open, ← h.cached, List.mem_map]
    constructor
    · rintro ⟨⟨target, _⟩, hmem, rfl⟩
      exact ⟨target, lookup_of_mem h.unique hmem⟩
    · rintro ⟨target, hlookup⟩
      exact ⟨_, mem_of_lookup hlookup, rfl⟩
  refine ⟨hopen, ?_, ?_, hcalls.same⟩
  · intro target conn conn' hconn hconn' hfor hfor'
    -- both are cached under the peer they were made for
    have hunder : ∀ c, p.Open c → p.For target c → p.conns.lookup target = some c := by
      intro c hc hfor
      obtain ⟨t, hlookup⟩ := (hopen c).mp hc
      obtain ⟨_, hmade, _⟩ := h.aimed t c (mem_of_lookup hlookup)
      obtain ⟨_, hmade', _⟩ := hfor
      rw [hmade] at hmade'
      injection Option.some.inj hmade' with ht
      rw [← ht]; exact hlookup
    have hcached := hunder conn hconn hfor
    rw [hunder conn' hconn' hfor'] at hcached
    exact (Option.some.inj hcached).symm
  · intro c hc conn closes hphase
    obtain ⟨hfor, _, hnow⟩ := hcalls.given c hc conn closes hphase
    exact ⟨hfor, fun heq => (hopen conn).mpr ⟨_, hnow heq⟩⟩

/--
Two goroutines miss the cache and wait for the lock. The first makes the connection in its
third attempt, and the second finds it there.
-/
def raceEvents : List Event :=
  [.getConn "b", .getConn "b", .lock 0 fun a => if a < 2 then some "refused" else none,
    .lock 1 fun _ => none]

theorem connections_tight_race : ∃ p,
    Execution.exec Pool.act (newGRPCTransport [("b", "b:9090")]) raceEvents = some p ∧
    p.made = [("b", "b:9090")] ∧ p.Open 0 ∧ ∃ target, p.conns.lookup target = some 0 := by
  obtain ⟨p, hx, hmade, hclosed⟩ : ∃ p ∈ Execution.exec Pool.act (newGRPCTransport [("b", "b:9090")])
      raceEvents, p.made = [("b", "b:9090")] ∧ p.closed = [] := by decide +kernel
  have hopen : p.Open 0 := by
    unfold Pool.Open
    rw [hmade, hclosed]
    decide
  exact ⟨p, hx, hmade, hopen, ((connections_tight (Execution.run_of_exec hx)).1 0).mp hopen⟩

end GammaFlow.Transport
