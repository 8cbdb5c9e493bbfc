import GammaFlow.Lib.Consensus.Matching

/-!
# Leader completeness

The textbook argument is an induction over terms: what a term decides is in the
log of every later leader, because the vote that elected it and the
acknowledgements that decided the entry share a node, and the log that node
voted with can only come from the leaders in between. With snapshots taken after
the sender was deposed that last step fails: under the label of an old term a
node may receive the log of a term far in the future.

So the induction runs over *time* instead. `Open S t C` says that the prefix `C`
of term `t`'s log may still be decided: a quorum has acknowledged it or has not
passed `t` yet. This can only become false, so whatever is decided in the end was
open at every earlier moment. `Kept` then lists, for an open prefix, all the
places that must already hold it.
-/

namespace GammaFlow.Consensus

variable {ν ε : Type} {Q : QuorumSystem ν}

/-- `C` is a prefix of the log of term `t` that ends with an entry of that term. -/
def Own (S : State ν ε) (t : ℕ) (C : List ε) : Prop :=
  ∃ r, S.reign t = some r ∧ C <+: r.log ∧ r.base.length < C.length

/-- Under term `t`, node `v` acknowledged a log that holds `C`. -/
def Acked (S : State ν ε) (v : ν) (t : ℕ) (C : List ε) : Prop :=
  ∃ a, (v, t, a) ∈ S.acks ∧ C <+: a

/-- Term `t` may still decide `C`. -/
def Open (Q : QuorumSystem ν) (S : State ν ε) (t : ℕ) (C : List ε) : Prop :=
  Q.IsQuorum {v | S.term v ≤ t ∨ Acked S v t C}

/-- Term `t` has decided `C`. -/
def Decided (Q : QuorumSystem ν) (S : State ν ε) (t : ℕ) (C : List ε) : Prop :=
  Own S t C ∧ Q.IsQuorum {v | Acked S v t C}

theorem Own.mono {S S' : State ν ε} {t : ℕ} {C : List ε} (h : Own S t C) (hle : Le S S') :
    Own S' t C := by
  obtain ⟨r, hr, hC, hb⟩ := h
  obtain ⟨r', hr', _, hb', hp⟩ := hle.reign t r hr
  exact ⟨r', hr', hC.trans hp, by rw [hb']; exact hb⟩

theorem Acked.mono {S S' : State ν ε} {v : ν} {t : ℕ} {C : List ε} (h : Acked S v t C)
    (hle : Le S S') : Acked S' v t C := by
  obtain ⟨a, ha, hC⟩ := h
  exact ⟨a, hle.acks ha, hC⟩

/-- Decisions are final. -/
theorem Decided.mono {S S' : State ν ε} {t : ℕ} {C : List ε} (h : Decided Q S t C)
    (hle : Le S S') : Decided Q S' t C :=
  ⟨h.1.mono hle, Q.mono (fun _ hv => Acked.mono hv hle) h.2⟩

theorem Decided.open {S : State ν ε} {t : ℕ} {C : List ε} (h : Decided Q S t C) :
    Open Q S t C :=
  Q.mono (fun _ hv => Or.inr hv) h.2

/-- Where a prefix that term `t` may still decide has to be found. -/
structure Kept (S : State ν ε) (t : ℕ) (C : List ε) : Prop where
  /-- Whoever acknowledged it still holds it. -/
  acked : ∀ v, Acked S v t C → C <+: S.log v
  /-- Whoever acknowledged it held it at every later vote. -/
  voted : ∀ v t' X m, (v, t', X, m) ∈ S.votes → t < t' → Acked S v t C → C <+: m
  /-- Later leaders were elected with it. -/
  base : ∀ t' r, S.reign t' = some r → t < t' → C <+: r.base
  /-- Later leaders still hold it, in office or not. -/
  led : ∀ t' r, S.reign t' = some r → t < t' → C <+: S.log r.leader
  /-- Snapshots under later terms hold it. -/
  later : ∀ X t' c L, (X, t', c, L) ∈ S.snaps → t < t' → C <+: L
  /-- Snapshots under the term itself at least do not contradict it. -/
  same : ∀ X c L, (X, t, c, L) ∈ S.snaps → C <+: L ∨ L <+: C

/-- Everything that may still be decided is kept. -/
def Complete (Q : QuorumSystem ν) (S : State ν ε) : Prop :=
  ∀ t C, Own S t C → Open Q S t C → Kept S t C

theorem complete_init : Complete Q (State.init : State ν ε) := by
  intro t C hown _
  obtain ⟨r, hr, _⟩ := hown
  exact absurd hr (by simp [State.init])

/-- A vote just cast records the voter's own log. -/
theorem vote_log {S : State ν ε} {v X : ν} {t : ℕ} :
    ∀ x ∈ insert (v, t, X, S.log v) S.votes, x ∈ S.votes ∨ x.2.2.2 = S.log x.1 := by
  intro x hx
  rcases Set.mem_insert_iff.mp hx with heq | hx
  · exact Or.inr (by rw [heq])
  · exact Or.inl hx

variable [Entry ε]

/-- An acknowledged own prefix ends with an entry of its term. -/
theorem Own.exists_last {S : State ν ε} (h : Logs Q S) {t : ℕ} {C : List ε} (hown : Own S t C) :
    ∃ e ∈ C, Entry.term e = t := by
  obtain ⟨r, hr, hC, hb⟩ := hown
  have hne : C ≠ [] := by intro hn; rw [hn] at hb; simp at hb
  obtain ⟨P, e, hP, _⟩ := exists_snoc hne
  refine ⟨e, by rw [hP]; simp, h.reigns.own_term hr P e (by rw [← hP]; exact hC) ?_⟩
  rw [hP, List.length_append, List.length_singleton] at hb
  omega

/--
**An up-to-date log holds what a quorum member held.**

If the candidate's last term is later than the voter's, its log ends inside the
reign of that term, which was won with `C`. If the last terms are equal, both logs
are prefixes of one leader log and the candidate's is not the shorter one.
-/
theorem UpToDate.carries {S : State ν ε} (h : Logs Q S) {t : ℕ} {C ℓ m : List ε}
    (hup : UpToDate ℓ m) (hℓ : Rooted S ℓ) (hm : Rooted S m) (hC : C <+: m)
    (hown : Own S t C) (hbase : ∀ t' r, S.reign t' = some r → t < t' → C <+: r.base) :
    C <+: ℓ := by
  obtain ⟨e, heC, het⟩ := hown.exists_last h
  have hmne : m ≠ [] := List.ne_nil_of_mem (hC.subset heC)
  obtain ⟨rm, hrm, hmp, _⟩ := hm.last hmne
  have htm : t ≤ lastTerm m := by
    rw [← het]; exact h.reigns.entry_term hrm (hmp.subset (hC.subset heC))
  rcases hup with hlt | ⟨heq, hlen⟩
  · have hℓne : ℓ ≠ [] := by intro hn; rw [hn] at hlt; exact absurd hlt (Nat.not_lt_zero _)
    obtain ⟨rl, hrl, hℓp, hbl⟩ := hℓ.last hℓne
    have hCb : C <+: rl.base := hbase _ rl hrl (by omega)
    have := hCb.length_le
    exact List.prefix_of_prefix_length_le (hCb.trans (h.reigns.base_prefix hrl)) hℓp (by omega)
  · have hmpos : 0 < m.length := List.length_pos_iff.mpr hmne
    have hℓne : ℓ ≠ [] := List.length_pos_iff.mp (by omega)
    obtain ⟨rl, hrl, hℓp, _⟩ := hℓ.last hℓne
    rw [heq, hrm] at hrl
    obtain rfl := Option.some.inj hrl
    exact hC.trans (List.prefix_of_prefix_length_le hmp hℓp hlen)

/-- A prefix nobody holds yet was acknowledged by nobody. -/
theorem not_acked_of_new {S : State ν ε} (h : Logs Q S) {v : ν} {b : List ε} {e : ε}
    (hr : S.reign (S.term v) = some ⟨v, b, S.log v⟩) (he : Entry.term e = S.term v) (u : ν)
    (t : ℕ) : ¬ Acked S u t (S.log v ++ [e]) := by
  intro hacked
  obtain ⟨a, ha, hp⟩ := hacked
  obtain ⟨r, hr', hpr, _⟩ := h.rooted a (Held.ack u t ha) _ e hp
  rw [he, hr] at hr'
  obtain rfl := Option.some.inj hr'
  have := hpr.length_le
  rw [List.length_append, List.length_singleton] at this
  dsimp only at this; omega

/-! ## Winning an election -/

/-- A fresh leader was elected with everything that may still be decided. -/
theorem elected_keeps {S : State ν ε} (hb : Ballots Q S) (h : Logs Q S) (hk : Complete Q S)
    {v : ν} (hc : (v, S.term v, S.log v) ∈ S.camps)
    (hq : Q.IsQuorum {u | ∃ m, (u, S.term v, v, m) ∈ S.votes}) {t : ℕ} {C : List ε}
    (hown : Own S t C) (hopen : Open Q S t C) (ht : t < S.term v) : C <+: S.log v := by
  have hkept := hk t C hown hopen
  obtain ⟨u, ⟨m, hm⟩, hu⟩ := Q.inter hq hopen
  -- the common node has passed `t`, so it acknowledged `C` before it voted
  have hacked : Acked S u t C := by
    rcases hu with hle | hacked
    · have := hb.vote_term hm; omega
    · exact hacked
  obtain ⟨ℓ, hcamp, hup⟩ := hb.vote_camp hm
  rw [hb.camp_unique hcamp hc] at hup
  exact hup.carries h (h.rooted _ (Held.node v rfl)) (h.rooted _ (Held.vote _ _ _ hm))
    (hkept.voted u _ v m hm ht hacked) hown hkept.base

/-- A late snapshot holds whatever its sender, once a leader, has to hold. -/
theorem complete_snap {S : State ν ε} (h : Logs Q S) (hk : Complete Q S)
    {v : ν} {t₀ c₀ : ℕ} (hcap : (v, t₀, c₀) ∈ S.caps) :
    Complete Q { S with snaps := insert (v, t₀, c₀, S.log v) S.snaps } := by
  intro t C hown hopen
  have hkept := hk t C hown hopen
  obtain ⟨r, hr, hl⟩ := h.sourced.cap hcap
  refine ⟨hkept.acked, hkept.voted, hkept.base, hkept.led, ?_, ?_⟩
  · intro X t' c L hL hlt
    rcases Set.mem_insert_iff.mp hL with heq | hL
    · obtain ⟨rfl, rfl, rfl, rfl⟩ := heq
      rw [← hl]; exact hkept.led t₀ r hr hlt
    · exact hkept.later X t' c L hL hlt
  · intro X c L hL
    rcases Set.mem_insert_iff.mp hL with heq | hL
    · -- the leader of `t` itself acknowledged everything it wrote
      obtain ⟨rfl, rfl, rfl, rfl⟩ := heq
      obtain ⟨r', hr', hC, _⟩ := hown
      rw [hr] at hr'
      obtain rfl := Option.some.inj hr'
      left
      rw [← hl]
      exact hkept.acked r.leader ⟨r.log, h.reigns.self_ack hr, hC⟩
    · exact hkept.same X c L hL

variable [DecidableEq ν]

/-- What may still be decided after a step could already be decided before it. -/
theorem open_of_step {v : ν} {S S' : State ν ε} (hs : Step Q v S S') {t : ℕ} {C : List ε}
    (hacks : ∀ u a, (u, t, a) ∈ S'.acks → C <+: a → Acked S u t C ∨ S.term u ≤ t)
    (hopen : Open Q S' t C) : Open Q S t C := by
  refine Q.mono ?_ hopen
  intro u hu
  rcases hu with hle | ⟨a, ha, hC⟩
  · exact Or.inl ((hs.le.term u).trans hle)
  · exact (hacks u a ha hC).symm

theorem complete_elect {S : State ν ε} (hb : Ballots Q S) (h : Logs Q S) (hk : Complete Q S)
    {v : ν} (hc : (v, S.term v, S.log v) ∈ S.camps)
    (hq : Q.IsQuorum {u | ∃ m, (u, S.term v, v, m) ∈ S.votes})
    (hn : S.reign (S.term v) = none) :
    Complete Q { S with
      reign := Function.update S.reign (S.term v) (some ⟨v, S.log v, S.log v⟩)
      acks := insert (v, S.term v, S.log v) S.acks } := by
  have hs := Step.elect S hc hq hn
  intro t C hown hopen
  -- the new reign has written nothing, so `C` belongs to an older one
  have hown₀ : Own S t C ∧ t ≠ S.term v := by
    obtain ⟨r, hr, hC, hlen⟩ := hown
    rcases update_cases hr with ⟨rfl, hnew⟩ | ⟨ht, hr⟩
    · obtain rfl := Option.some.inj hnew
      have := hC.length_le
      dsimp only at hlen this; omega
    · exact ⟨⟨r, hr, hC, hlen⟩, ht⟩
  have hack : ∀ u a, (u, t, a) ∈ insert (v, S.term v, S.log v) S.acks → (u, t, a) ∈ S.acks := by
    intro u a ha
    rcases Set.mem_insert_iff.mp ha with heq | ha
    · exact absurd (congrArg (fun p => p.2.1) heq) hown₀.2
    · exact ha
  have hacked : ∀ u, Acked { S with
      reign := Function.update S.reign (S.term v) (some ⟨v, S.log v, S.log v⟩)
      acks := insert (v, S.term v, S.log v) S.acks } u t C → Acked S u t C := by
    intro u hu
    obtain ⟨a, ha, hC⟩ := hu
    exact ⟨a, hack u a ha, hC⟩
  have hopen₀ : Open Q S t C :=
    open_of_step hs (fun u a ha hC => Or.inl ⟨a, hack u a ha, hC⟩) hopen
  have hkept := hk t C hown₀.1 hopen₀
  refine ⟨fun u hu => hkept.acked u (hacked u hu),
    fun u t' X m hm hlt hu => hkept.voted u t' X m hm hlt (hacked u hu), ?_, ?_,
    hkept.later, hkept.same⟩
  · intro t' r hr hlt
    rcases update_cases hr with ⟨rfl, hnew⟩ | ⟨_, hr⟩
    · rw [← Option.some.inj hnew]
      exact elected_keeps hb h hk hc hq hown₀.1 hopen₀ hlt
    · exact hkept.base t' r hr hlt
  · intro t' r hr hlt
    rcases update_cases hr with ⟨rfl, hnew⟩ | ⟨_, hr⟩
    · rw [← Option.some.inj hnew]
      exact elected_keeps hb h hk hc hq hown₀.1 hopen₀ hlt
    · exact hkept.led t' r hr hlt

/-! ## The other steps -/

/-- Steps that at most cast a vote. -/
theorem complete_still {v : ν} {S S' : State ν ε} (hk : Complete Q S) (hs : Step Q v S S')
    (hlog : S'.log = S.log) (hreign : S'.reign = S.reign) (hacks : S'.acks = S.acks)
    (hsnaps : S'.snaps = S.snaps)
    (hvotes : ∀ x ∈ S'.votes, x ∈ S.votes ∨ x.2.2.2 = S.log x.1) : Complete Q S' := by
  intro t C hown hopen
  have hown₀ : Own S t C := by
    obtain ⟨r, hr, hC⟩ := hown
    exact ⟨r, by rw [← hreign]; exact hr, hC⟩
  have hacked : ∀ u, Acked S' u t C → Acked S u t C := by
    intro u hu
    obtain ⟨a, ha, hC⟩ := hu
    exact ⟨a, by rw [← hacks]; exact ha, hC⟩
  have hkept := hk t C hown₀
    (open_of_step hs (fun u a ha hC => Or.inl (hacked u ⟨a, ha, hC⟩)) hopen)
  refine ⟨?_, ?_, ?_, ?_, ?_, ?_⟩
  · intro u hu; rw [hlog]; exact hkept.acked u (hacked u hu)
  · intro u t' X m hm hlt hu
    rcases hvotes _ hm with hm | hm
    · exact hkept.voted u t' X m hm hlt (hacked u hu)
    · dsimp only at hm; rw [hm]; exact hkept.acked u (hacked u hu)
  · intro t' r hr hlt; rw [hreign] at hr; exact hkept.base t' r hr hlt
  · intro t' r hr hlt; rw [hreign] at hr; rw [hlog]; exact hkept.led t' r hr hlt
  · intro X t' c L hL hlt; rw [hsnaps] at hL; exact hkept.later X t' c L hL hlt
  · intro X c L hL; rw [hsnaps] at hL; exact hkept.same X c L hL

/--
A leader's new entry is open, but nobody else holds it and no later term has been
won: a later quorum would contain a node that passed the term without it.
-/
theorem kept_append_new {S : State ν ε} (hb : Ballots Q S) (h : Logs Q S) {v : ν} {b : List ε}
    {e : ε} (hr : S.reign (S.term v) = some ⟨v, b, S.log v⟩) (he : Entry.term e = S.term v)
    {S' : State ν ε} (hS' : S' = { S with
      log := Function.update S.log v (S.log v ++ [e])
      reign := Function.update S.reign (S.term v) (some ⟨v, b, S.log v ++ [e]⟩)
      acks := insert (v, S.term v, S.log v ++ [e]) S.acks })
    (hopen : Open Q S' (S.term v) (S.log v ++ [e])) : Kept S' (S.term v) (S.log v ++ [e]) := by
  subst hS'
  have honly : ∀ u, Acked { S with
      log := Function.update S.log v (S.log v ++ [e])
      reign := Function.update S.reign (S.term v) (some ⟨v, b, S.log v ++ [e]⟩)
      acks := insert (v, S.term v, S.log v ++ [e]) S.acks } u (S.term v) (S.log v ++ [e]) →
      u = v := by
    intro u hu
    obtain ⟨a, ha, hC⟩ := hu
    rcases Set.mem_insert_iff.mp ha with heq | ha
    · exact congrArg Prod.fst heq
    · exact absurd ⟨a, ha, hC⟩ (not_acked_of_new h hr he u (S.term v))
  have hnone : ∀ t' r, S.reign t' = some r → S.term v < t' → False := by
    intro t' r hr' hlt
    obtain ⟨u, ⟨m, hm⟩, hu⟩ := Q.inter (hb.reign_quorum hr') hopen
    have hut := hb.vote_term hm
    rcases hu with hle | hacked
    · dsimp only at hle; omega
    · rw [honly u hacked] at hut; omega
  have hreign : ∀ {t' r}, Function.update S.reign (S.term v)
      (some ⟨v, b, S.log v ++ [e]⟩) t' = some r → S.term v < t' → False := by
    intro t' r hr' hlt
    rw [Function.update_of_ne (by omega)] at hr'
    exact hnone t' r hr' hlt
  refine ⟨?_, ?_, ?_, ?_, ?_, ?_⟩
  · intro u hu; rw [honly u hu]; simp
  · intro u t' X m hm hlt hu
    have := hb.vote_term hm
    rw [honly u hu] at this; omega
  · intro t' r hr' hlt; exact (hreign hr' hlt).elim
  · intro t' r hr' hlt; exact (hreign hr' hlt).elim
  · intro X t' c L hL hlt
    obtain ⟨r, hr', _⟩ := h.sourced.snap hL
    exact (hnone t' r hr' hlt).elim
  · -- the leader is still in office, so its snapshots are prefixes of its log
    intro X c L hL
    obtain ⟨r, hr', hX, hp⟩ := h.sourced.snap hL
    rw [hr] at hr'
    obtain rfl := Option.some.inj hr'
    rcases hp with hp | hlt
    · exact Or.inr (hp.trans (List.prefix_append _ _))
    · rw [← hX] at hlt; exact absurd hlt (lt_irrefl _)

theorem complete_append {S : State ν ε} (hb : Ballots Q S) (h : Logs Q S) (hk : Complete Q S)
    {v : ν} {b : List ε} {e : ε} (hr : S.reign (S.term v) = some ⟨v, b, S.log v⟩)
    (he : Entry.term e = S.term v) (hi : Entry.index e = (S.log v).length + 1) :
    Complete Q { S with
      log := Function.update S.log v (S.log v ++ [e])
      reign := Function.update S.reign (S.term v) (some ⟨v, b, S.log v ++ [e]⟩)
      acks := insert (v, S.term v, S.log v ++ [e]) S.acks } := by
  have hs := Step.append (Q := Q) S b e hr he hi
  intro t C hown hopen
  by_cases hnew : t = S.term v ∧ C = S.log v ++ [e]
  · obtain ⟨rfl, rfl⟩ := hnew
    exact kept_append_new hb h hr he rfl hopen
  · have hown₀ : Own S t C := by
      obtain ⟨r, hr', hC, hlen⟩ := hown
      rcases update_cases hr' with ⟨rfl, hset⟩ | ⟨_, hr'⟩
      · obtain rfl := Option.some.inj hset
        rcases List.prefix_concat_iff.mp hC with heq | hC
        · exact absurd ⟨rfl, heq⟩ hnew
        · exact ⟨_, hr, hC, hlen⟩
      · exact ⟨r, hr', hC, hlen⟩
    -- the leader's own acknowledgement of a shorter prefix is an old one
    have hacked : ∀ u a, (u, t, a) ∈ insert (v, S.term v, S.log v ++ [e]) S.acks → C <+: a →
        Acked S u t C := by
      intro u a ha hC
      rcases Set.mem_insert_iff.mp ha with heq | ha
      · obtain ⟨rfl, rfl, rfl⟩ := heq
        rcases List.prefix_concat_iff.mp hC with heq | hC
        · exact absurd ⟨rfl, heq⟩ hnew
        · exact ⟨S.log v, h.reigns.self_ack hr, hC⟩
      · exact ⟨a, ha, hC⟩
    have hkept := hk t C hown₀ (open_of_step hs (fun u a ha hC => Or.inl (hacked u a ha hC)) hopen)
    have hlog : ∀ u, C <+: S.log u →
        C <+: Function.update S.log v (S.log v ++ [e]) u := by
      intro u hC
      by_cases huv : u = v
      · subst huv; rw [Function.update_self]; exact hC.trans (List.prefix_append _ _)
      · rw [Function.update_of_ne huv]; exact hC
    have hreign : ∀ {t' r}, Function.update S.reign (S.term v)
        (some ⟨v, b, S.log v ++ [e]⟩) t' = some r →
        ∃ r₀, S.reign t' = some r₀ ∧ r₀.leader = r.leader ∧ r₀.base = r.base := by
      intro t' r hr'
      rcases update_cases hr' with ⟨rfl, hset⟩ | ⟨_, hr'⟩
      · rw [← Option.some.inj hset]; exact ⟨_, hr, rfl, rfl⟩
      · exact ⟨r, hr', rfl, rfl⟩
    refine ⟨?_, ?_, ?_, ?_, hkept.later, hkept.same⟩
    · intro u hu
      obtain ⟨a, ha, hC⟩ := hu
      exact hlog u (hkept.acked u (hacked u a ha hC))
    · intro u t' X m hm hlt hu
      obtain ⟨a, ha, hC⟩ := hu
      exact hkept.voted u t' X m hm hlt (hacked u a ha hC)
    · intro t' r hr' hlt
      obtain ⟨r₀, h₀, _, hb₀⟩ := hreign hr'
      rw [← hb₀]; exact hkept.base t' r₀ h₀ hlt
    · intro t' r hr' hlt
      obtain ⟨r₀, h₀, hl₀, _⟩ := hreign hr'
      dsimp only
      rw [← hl₀]; exact hlog _ (hkept.led t' r₀ h₀ hlt)

theorem complete_adopt {S : State ν ε} (hb : Ballots Q S) (h : Logs Q S) (hk : Complete Q S)
    {v X₀ : ν} {c₀ : ℕ} {M : List ε} (hM : (X₀, S.term v, c₀, M) ∈ S.snaps) :
    Complete Q { S with
      log := Function.update S.log v (graft M (S.log v))
      commit := Function.update S.commit v (max (S.commit v) (min c₀ (graft M (S.log v)).length))
      acks := insert (v, S.term v, graft M (S.log v)) S.acks } := by
  have hs := Step.adopt (Q := Q) S X₀ c₀ M hM
  intro t C hown hopen
  have hacked : ∀ u a, (u, t, a) ∈ insert (v, S.term v, graft M (S.log v)) S.acks → C <+: a →
      Acked S u t C ∨ (u = v ∧ S.term v = t ∧ C <+: graft M (S.log v)) := by
    intro u a ha hC
    rcases Set.mem_insert_iff.mp ha with heq | ha
    · obtain ⟨rfl, rfl, rfl⟩ := heq; exact Or.inr ⟨rfl, rfl, hC⟩
    · exact Or.inl ⟨a, ha, hC⟩
  have hkept : Kept S t C := by
    refine hk t C hown (open_of_step hs ?_ hopen)
    intro u a ha hC
    rcases hacked u a ha hC with hold | ⟨rfl, ht, _⟩
    · exact Or.inl hold
    · exact Or.inr ht.le
  -- a node that holds `C` and has reached `t` keeps it through the graft
  have hgraft : t ≤ S.term v → C <+: S.log v → C <+: graft M (S.log v) := by
    intro ht hC
    refine prefix_graft hC ?_
    rcases ht.lt_or_eq with hlt | heq
    · exact Or.inl (hkept.later X₀ _ c₀ M hM hlt)
    · rw [← heq] at hM; exact hkept.same X₀ c₀ M hM
  refine ⟨?_, ?_, hkept.base, ?_, hkept.later, hkept.same⟩
  · intro u hu
    obtain ⟨a, ha, hC⟩ := hu
    by_cases huv : u = v
    · subst huv
      dsimp only
      rw [Function.update_self]
      rcases hacked u a ha hC with hold | ⟨_, _, hC⟩
      · refine hgraft ?_ (hkept.acked u hold)
        rcases Set.mem_insert_iff.mp ha with heq | ha
        · rw [show t = S.term u from congrArg (fun p => p.2.1) heq]
        · exact (h.sourced.ack ha).1
      · exact hC
    · dsimp only
      rw [Function.update_of_ne huv]
      rcases hacked u a ha hC with hold | ⟨huv', _⟩
      · exact hkept.acked u hold
      · exact absurd huv' huv
  · intro u t' X m hm hlt hu
    obtain ⟨a, ha, hC⟩ := hu
    rcases hacked u a ha hC with hold | ⟨rfl, ht, _⟩
    · exact hkept.voted u t' X m hm hlt hold
    · have := hb.vote_term hm; omega
  · intro t' r hr hlt
    have hC := hkept.led t' r hr hlt
    dsimp only
    by_cases hlv : r.leader = v
    · have := hb.reign_term hr
      rw [hlv] at this hC
      rw [hlv, Function.update_self]; exact hgraft (by omega) hC
    · rw [Function.update_of_ne hlv]; exact hC

/-- **Completeness is preserved by every step.** -/
theorem complete_step {v : ν} {S S' : State ν ε} (hb : Ballots Q S) (h : Logs Q S)
    (hk : Complete Q S) (hs : Step Q v S S') : Complete Q S' := by
  have hs' := hs
  cases hs with
  | raise t ht => exact complete_still hk hs' rfl rfl rfl rfl fun _ => Or.inl
  | campaign => exact complete_still hk hs' rfl rfl rfl rfl vote_log
  | vote X ℓ hc hu ho => exact complete_still hk hs' rfl rfl rfl rfl vote_log
  | elect hc hq hn => exact complete_elect hb h hk hc hq hn
  | append b e hr he hi => exact complete_append hb h hk hr he hi
  | capture b hr => exact complete_still hk hs' rfl rfl rfl rfl fun _ => Or.inl
  | snap t c hc => exact complete_snap h hk hc
  | adopt X c L hL => exact complete_adopt hb h hk hL
  | decide b N hr hlt hN hq hle => exact complete_still hk hs' rfl rfl rfl rfl fun _ => Or.inl

end GammaFlow.Consensus
