import GammaFlow.Lib.Consensus.System

/-!
# Votes, and one leader per term

What the history says about elections: a node campaigns with one log per term,
votes for one candidate per term, and a term that was won was won by a quorum of
votes. Two quorums meet, so a second winner of the same term would need the
common voter to have voted twice: `winner_unique`.
-/

namespace GammaFlow.Consensus

variable {ν ε : Type} [Entry ε] {Q : QuorumSystem ν}

/-- The election history is coherent. -/
structure Ballots (Q : QuorumSystem ν) (S : State ν ε) : Prop where
  /-- Terms that are campaigned for start at `1`. -/
  camp_pos : ∀ {X t ℓ}, (X, t, ℓ) ∈ S.camps → 0 < t
  /-- A candidate has reached the term it campaigned in. -/
  camp_term : ∀ {X t ℓ}, (X, t, ℓ) ∈ S.camps → t ≤ S.term X
  /-- A node campaigns with one log per term. -/
  camp_unique : ∀ {X t ℓ ℓ'}, (X, t, ℓ) ∈ S.camps → (X, t, ℓ') ∈ S.camps → ℓ = ℓ'
  /-- A voter has reached the term it voted in. -/
  vote_term : ∀ {v t X m}, (v, t, X, m) ∈ S.votes → t ≤ S.term v
  /-- A node votes for one candidate per term. -/
  vote_unique : ∀ {v t X m Y m'}, (v, t, X, m) ∈ S.votes → (v, t, Y, m') ∈ S.votes → X = Y
  /-- A vote goes to a candidate whose log is at least as up to date as the voter's. -/
  vote_camp : ∀ {v t X m}, (v, t, X, m) ∈ S.votes → ∃ ℓ, (X, t, ℓ) ∈ S.camps ∧ UpToDate ℓ m
  /-- A reign rests on a quorum of votes. -/
  reign_quorum : ∀ {t r}, S.reign t = some r →
    Q.IsQuorum {v | ∃ m, (v, t, r.leader, m) ∈ S.votes}
  /-- A reign starts from the log the leader campaigned with. -/
  reign_camp : ∀ {t r}, S.reign t = some r → (r.leader, t, r.base) ∈ S.camps

theorem ballots_init : Ballots Q (State.init : State ν ε) where
  camp_pos h := absurd h (by simp [State.init])
  camp_term h := absurd h (by simp [State.init])
  camp_unique h := absurd h (by simp [State.init])
  vote_term h := absurd h (by simp [State.init])
  vote_unique h := absurd h (by simp [State.init])
  vote_camp h := absurd h (by simp [State.init])
  reign_quorum h := absurd h (by simp [State.init])
  reign_camp h := absurd h (by simp [State.init])

theorem upToDate_self (ℓ : List ε) : UpToDate ℓ ℓ := Or.inr ⟨rfl, le_rfl⟩

/-- Two winners of one term are the same node. -/
theorem Ballots.winner_unique {S : State ν ε} (h : Ballots Q S) {t : ℕ} {r : Reign ν ε}
    (hr : S.reign t = some r) {X : ν} (hX : Q.IsQuorum {v | ∃ m, (v, t, X, m) ∈ S.votes}) :
    r.leader = X := by
  obtain ⟨v, ⟨m, hm⟩, ⟨m', hm'⟩⟩ := Q.inter (h.reign_quorum hr) hX
  exact h.vote_unique hm hm'

/-- A leader has reached the term of its reign. -/
theorem Ballots.reign_term {S : State ν ε} (h : Ballots Q S) {t : ℕ} {r : Reign ν ε}
    (hr : S.reign t = some r) : t ≤ S.term r.leader :=
  h.camp_term (h.reign_camp hr)

/-- Terms and reigns that leave camps and votes alone keep the ballots coherent. -/
theorem Ballots.of_reign {S S' : State ν ε} (h : Ballots Q S) (hle : Le S S')
    (hcamps : S'.camps = S.camps) (hvotes : S'.votes = S.votes)
    (hreign : ∀ t r, S'.reign t = some r →
      (∃ r₀, S.reign t = some r₀ ∧ r₀.leader = r.leader ∧ r₀.base = r.base) ∨
      ((r.leader, t, r.base) ∈ S.camps ∧
        Q.IsQuorum {v | ∃ m, (v, t, r.leader, m) ∈ S.votes})) : Ballots Q S' where
  camp_pos hc := h.camp_pos (hcamps ▸ hc)
  camp_term hc := (h.camp_term (hcamps ▸ hc)).trans (hle.term _)
  camp_unique hc hc' := h.camp_unique (hcamps ▸ hc) (hcamps ▸ hc')
  vote_term hv := (h.vote_term (hvotes ▸ hv)).trans (hle.term _)
  vote_unique hv hv' := h.vote_unique (hvotes ▸ hv) (hvotes ▸ hv')
  vote_camp hv := by
    rw [hvotes] at hv; rw [hcamps]; exact h.vote_camp hv
  reign_quorum hr := by
    rw [hvotes]
    rcases hreign _ _ hr with ⟨r₀, h₀, hl, _⟩ | ⟨_, hq⟩
    · rw [← hl]; exact h.reign_quorum h₀
    · exact hq
  reign_camp hr := by
    rw [hcamps]
    rcases hreign _ _ hr with ⟨r₀, h₀, hl, hb⟩ | ⟨hc, _⟩
    · rw [← hl, ← hb]; exact h.reign_camp h₀
    · exact hc

/-- Casting a vote keeps votes unique because the guard looked at the earlier ones. -/
theorem ballots_vote {S : State ν ε} (h : Ballots Q S) {v X : ν} {ℓ : List ε}
    (hc : (X, S.term v, ℓ) ∈ S.camps) (hu : UpToDate ℓ (S.log v))
    (ho : ∀ Y m, (v, S.term v, Y, m) ∈ S.votes → Y = X) :
    Ballots Q { S with votes := insert (v, S.term v, X, S.log v) S.votes } := by
  refine ⟨h.camp_pos, h.camp_term, h.camp_unique, ?_, ?_, ?_, ?_, h.reign_camp⟩
  · intro u t Y m hv
    rcases Set.mem_insert_iff.mp hv with heq | hv
    · obtain ⟨rfl, rfl, rfl, rfl⟩ := heq; exact le_rfl
    · exact h.vote_term hv
  · intro u t Y m Z m' hv hv'
    rcases Set.mem_insert_iff.mp hv with heq | hv <;>
      rcases Set.mem_insert_iff.mp hv' with heq' | hv'
    · exact (congrArg (fun p => p.2.2.1) heq).trans (congrArg (fun p => p.2.2.1) heq').symm
    · obtain ⟨rfl, rfl, rfl, rfl⟩ := heq; exact (ho Z m' hv').symm
    · obtain ⟨rfl, rfl, rfl, rfl⟩ := heq'; exact ho Y m hv
    · exact h.vote_unique hv hv'
  · intro u t Y m hv
    rcases Set.mem_insert_iff.mp hv with heq | hv
    · obtain ⟨rfl, rfl, rfl, rfl⟩ := heq; exact ⟨ℓ, hc, hu⟩
    · exact h.vote_camp hv
  · intro t r hr
    refine Q.mono ?_ (h.reign_quorum hr)
    rintro u ⟨m, hm⟩
    exact ⟨m, Set.mem_insert_of_mem _ hm⟩

variable [DecidableEq ν]

/-- Opening a term: nothing was known of it under this candidate's name. -/
theorem ballots_campaign {S : State ν ε} (h : Ballots Q S) (v : ν) :
    Ballots Q { S with
      term := Function.update S.term v (S.term v + 1)
      camps := insert (v, S.term v + 1, S.log v) S.camps
      votes := insert (v, S.term v + 1, v, S.log v) S.votes } := by
  have hle := (Step.campaign (Q := Q) (v := v) S).le
  refine ⟨?_, ?_, ?_, ?_, ?_, ?_, ?_, ?_⟩
  · intro X t ℓ hc
    rcases Set.mem_insert_iff.mp hc with heq | hc
    · obtain ⟨rfl, rfl, rfl⟩ := heq; exact Nat.succ_pos _
    · exact h.camp_pos hc
  · intro X t ℓ hc
    rcases Set.mem_insert_iff.mp hc with heq | hc
    · obtain ⟨rfl, rfl, rfl⟩ := heq; simp
    · exact (h.camp_term hc).trans (hle.term X)
  · intro X t ℓ ℓ' hc hc'
    rcases Set.mem_insert_iff.mp hc with heq | hc <;>
      rcases Set.mem_insert_iff.mp hc' with heq' | hc'
    -- the new term lies above all that is on record of this node
    · obtain ⟨rfl, rfl, rfl⟩ := heq; exact (congrArg (fun p => p.2.2) heq').symm
    · obtain ⟨rfl, rfl, rfl⟩ := heq; have := h.camp_term hc'; omega
    · obtain ⟨rfl, rfl, rfl⟩ := heq'; have := h.camp_term hc; omega
    · exact h.camp_unique hc hc'
  · intro u t X m hv
    rcases Set.mem_insert_iff.mp hv with heq | hv
    · obtain ⟨rfl, rfl, rfl, rfl⟩ := heq; simp
    · exact (h.vote_term hv).trans (hle.term u)
  · intro u t X m Y m' hv hv'
    rcases Set.mem_insert_iff.mp hv with heq | hv <;>
      rcases Set.mem_insert_iff.mp hv' with heq' | hv'
    · exact (congrArg (fun p => p.2.2.1) heq).trans (congrArg (fun p => p.2.2.1) heq').symm
    · obtain ⟨rfl, rfl, rfl, rfl⟩ := heq; have := h.vote_term hv'; omega
    · obtain ⟨rfl, rfl, rfl, rfl⟩ := heq'; have := h.vote_term hv; omega
    · exact h.vote_unique hv hv'
  · intro u t X m hv
    rcases Set.mem_insert_iff.mp hv with heq | hv
    · obtain ⟨rfl, rfl, rfl, rfl⟩ := heq
      exact ⟨_, Set.mem_insert _ _, upToDate_self _⟩
    · obtain ⟨ℓ, hc, hu⟩ := h.vote_camp hv
      exact ⟨ℓ, Set.mem_insert_of_mem _ hc, hu⟩
  · intro t r hr
    refine Q.mono ?_ (h.reign_quorum hr)
    rintro u ⟨m, hm⟩
    exact ⟨m, hle.votes hm⟩
  · intro t r hr
    exact hle.camps (h.reign_camp hr)

theorem ballots_step {v : ν} {S S' : State ν ε} (h : Ballots Q S) (hs : Step Q v S S') :
    Ballots Q S' := by
  have hle := hs.le
  -- steps that touch neither campaigns, votes nor reigns
  have still : S'.camps = S.camps → S'.votes = S.votes → S'.reign = S.reign → Ballots Q S' :=
    fun hc hv hr => h.of_reign hle hc hv
      fun t r hr' => Or.inl ⟨r, by rw [← hr]; exact hr', rfl, rfl⟩
  cases hs with
  | raise t ht => exact still rfl rfl rfl
  | campaign => exact ballots_campaign h v
  | vote X ℓ hc hu ho => exact ballots_vote h hc hu ho
  | elect hc hq hn =>
      refine h.of_reign hle rfl rfl ?_
      intro t r hr
      rcases update_cases hr with ⟨rfl, hnew⟩ | ⟨_, hr⟩
      · rw [← Option.some.inj hnew]; exact Or.inr ⟨hc, hq⟩
      · exact Or.inl ⟨r, hr, rfl, rfl⟩
  | append b e hr he hi =>
      refine h.of_reign hle rfl rfl ?_
      intro t r hr'
      rcases update_cases hr' with ⟨rfl, hnew⟩ | ⟨_, hr'⟩
      · rw [← Option.some.inj hnew]; exact Or.inl ⟨_, hr, rfl, rfl⟩
      · exact Or.inl ⟨r, hr', rfl, rfl⟩
  | capture b hr => exact still rfl rfl rfl
  | snap t c hc => exact still rfl rfl rfl
  | adopt X c L hs => exact still rfl rfl rfl
  | decide b N hr hb hN hq hle => exact still rfl rfl rfl

end GammaFlow.Consensus
