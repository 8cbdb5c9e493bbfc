import GammaFlow.Lib.Consensus.Ballots

/-!
# Log matching

Every log anywhere in the history is *rooted*: cut it after any entry and what
remains is a prefix of the log of the leader that wrote that entry. Two rooted
logs that carry the same term at the same position are therefore prefixes of one
and the same leader log up to there, which is Log Matching.

Rootedness is easy to keep, because steps hardly ever make a new log. A vote, an
acknowledgement or a snapshot copies a log that some node holds, a graft picks one
of two existing logs, and only `append` builds a log nobody held before.

The delicate part is that a reign starts from a log without entries of its own or
of a later term. Nodes can hold entries of terms they have not reached, so this is
not a matter of comparing with the candidate's term; `Hopeless` shows that a
candidate with such an entry can no longer collect a quorum.
-/

namespace GammaFlow.Consensus

variable {ν ε : Type}

/-- An entry of a list ends one of its prefixes. -/
theorem exists_prefix_of_mem {e : ε} {L : List ε} (h : e ∈ L) : ∃ P, P ++ [e] <+: L := by
  obtain ⟨P, R, rfl⟩ := List.append_of_mem h
  exact ⟨P, ⟨R, by simp⟩⟩

/-! ## Where logs come from -/

/-- `L` is held by a node or recorded somewhere in the history. -/
inductive Held (S : State ν ε) (L : List ε) : Prop
  | node (v : ν) : L = S.log v → Held S L
  | camp (X : ν) (t : ℕ) : (X, t, L) ∈ S.camps → Held S L
  | vote (v : ν) (t : ℕ) (X : ν) : (v, t, X, L) ∈ S.votes → Held S L
  | ack (v : ν) (t : ℕ) : (v, t, L) ∈ S.acks → Held S L
  | snap (X : ν) (t c : ℕ) : (X, t, c, L) ∈ S.snaps → Held S L

/-- The only log that `S'` may hold beyond those of `S` is `M`. -/
structure Adds (M : List ε) (S S' : State ν ε) : Prop where
  log : ∀ u, S'.log u = S.log u ∨ S'.log u = M
  camps : ∀ x ∈ S'.camps, x ∈ S.camps ∨ x.2.2 = M
  votes : ∀ x ∈ S'.votes, x ∈ S.votes ∨ x.2.2.2 = M
  acks : ∀ x ∈ S'.acks, x ∈ S.acks ∨ x.2.2 = M
  snaps : ∀ x ∈ S'.snaps, x ∈ S.snaps ∨ x.2.2.2 = M

theorem Adds.refl (M : List ε) (S : State ν ε) : Adds M S S :=
  ⟨fun _ => Or.inl rfl, fun _ => Or.inl, fun _ => Or.inl, fun _ => Or.inl, fun _ => Or.inl⟩

theorem Adds.held {M L : List ε} {S S' : State ν ε} (h : Adds M S S') (hL : Held S' L) :
    Held S L ∨ L = M := by
  cases hL with
  | node v hv => rw [hv]; exact (h.log v).imp (fun h' => Held.node v h') id
  | camp X t hc => exact (h.camps _ hc).imp (Held.camp X t) id
  | vote v t X hv => exact (h.votes _ hv).imp (Held.vote v t X) id
  | ack v t ha => exact (h.acks _ ha).imp (Held.ack v t) id
  | snap X t c hs => exact (h.snaps _ hs).imp (Held.snap X t c) id

/-- Inserting one record whose log is `M`. -/
theorem adds_insert {α : Type} {s : Set α} {x₀ : α} {f : α → List ε} :
    ∀ x ∈ insert x₀ s, x ∈ s ∨ f x = f x₀ := by
  intro x hx
  rcases Set.mem_insert_iff.mp hx with heq | hx
  · exact Or.inr (by rw [heq])
  · exact Or.inl hx

theorem adds_update [DecidableEq ν] {f : ν → List ε} {v : ν} {M : List ε} :
    ∀ u, Function.update f v M u = f u ∨ Function.update f v M u = M := by
  intro u
  by_cases huv : u = v
  · subst huv; right; simp
  · left; simp [huv]

/-! ## Rooted logs -/

variable [Entry ε] {Q : QuorumSystem ν}

/-- Every prefix of `L` is a prefix of the log of the leader that wrote its last entry. -/
def Rooted (S : State ν ε) (L : List ε) : Prop :=
  ∀ P e, P ++ [e] <+: L →
    ∃ r, S.reign (Entry.term e) = some r ∧ P ++ [e] <+: r.log ∧ r.base.length ≤ P.length

theorem rooted_nil (S : State ν ε) : Rooted S [] := by
  intro P e h
  exact absurd (List.prefix_nil.mp h) (by simp)

theorem Rooted.mono {S S' : State ν ε} {L : List ε} (h : Rooted S L) (hle : Le S S') :
    Rooted S' L := by
  intro P e hP
  obtain ⟨r, hr, hp, hb⟩ := h P e hP
  obtain ⟨r', hr', _, hb', hp'⟩ := hle.reign _ r hr
  exact ⟨r', hr', hp.trans hp', by rw [hb']; exact hb⟩

/-- Entries of one term come from one log, wherever they stand. -/
theorem Rooted.common {S : State ν ε} {L M P P' : List ε} {e e' : ε}
    (hL : Rooted S L) (hM : Rooted S M) (hP : P ++ [e] <+: L) (hP' : P' ++ [e'] <+: M)
    (ht : Entry.term e = Entry.term e') : ∃ R, P ++ [e] <+: R ∧ P' ++ [e'] <+: R := by
  obtain ⟨r, hr, hp, _⟩ := hL P e hP
  obtain ⟨r', hr', hp', _⟩ := hM P' e' hP'
  rw [ht, hr'] at hr
  obtain rfl := Option.some.inj hr
  exact ⟨_, hp, hp'⟩

/-- **Log matching.** Equal terms at equal positions force equal prefixes. -/
theorem Rooted.matching {S : State ν ε} {L M P P' : List ε} {e e' : ε}
    (hL : Rooted S L) (hM : Rooted S M) (hP : P ++ [e] <+: L) (hP' : P' ++ [e'] <+: M)
    (hlen : P.length = P'.length) (ht : Entry.term e = Entry.term e') :
    P ++ [e] = P' ++ [e'] := by
  obtain ⟨R, hp, hp'⟩ := hL.common hM hP hP' ht
  have hlen' : (P ++ [e]).length = (P' ++ [e']).length := by simp [hlen]
  exact (List.prefix_of_prefix_length_le hp hp' hlen'.le).eq_of_length hlen'

/-- The last entry of a nonempty log, with the log split before it. -/
theorem exists_snoc {L : List ε} (h : L ≠ []) : ∃ P e, L = P ++ [e] ∧ lastTerm L = Entry.term e := by
  refine ⟨L.dropLast, L.getLast h, (List.dropLast_append_getLast h).symm, ?_⟩
  rw [lastTerm, List.getLast?_eq_some_getLast h]
  rfl

/-- A nonempty rooted log is itself a prefix of the log of its last entry's leader. -/
theorem Rooted.last {S : State ν ε} {L : List ε} (h : Rooted S L) (hne : L ≠ []) :
    ∃ r, S.reign (lastTerm L) = some r ∧ L <+: r.log ∧ r.base.length < L.length := by
  obtain ⟨P, e, hL, ht⟩ := exists_snoc hne
  obtain ⟨r, hr, hp, hb⟩ := h P e (by rw [← hL])
  refine ⟨r, by rw [ht]; exact hr, by rw [hL]; exact hp, ?_⟩
  rw [hL, List.length_append, List.length_singleton]
  omega

/-- Every entry stands at the place it was written at. -/
def Indexed (L : List ε) : Prop := ∀ P e, P ++ [e] <+: L → Entry.index e = P.length + 1

/-- Every log in sight is rooted. -/
def AllRooted (S : State ν ε) : Prop := ∀ L, Held S L → Rooted S L

theorem allRooted_init : AllRooted (State.init : State ν ε) := by
  intro L h
  cases h with
  | node v h => rw [h]; exact rooted_nil _
  | camp X t h => exact absurd h (by simp [State.init])
  | vote v t X h => exact absurd h (by simp [State.init])
  | ack v t h => exact absurd h (by simp [State.init])
  | snap X t c h => exact absurd h (by simp [State.init])

section

variable [DecidableEq ν]

/-- **Only `append` makes a log nobody held.** -/
theorem held_step {v : ν} {S S' : State ν ε} (hs : Step Q v S S') {L : List ε}
    (h : Held S' L) :
    Held S L ∨ ∃ b e, S.reign (S.term v) = some ⟨v, b, S.log v⟩ ∧ Entry.term e = S.term v ∧
      Entry.index e = (S.log v).length + 1 ∧ L = S.log v ++ [e] ∧ S'.reign (S.term v) = some ⟨v, b, S.log v ++ [e]⟩ := by
  -- every other step copies a log that is already held
  have copied : ∀ {M}, Held S M → Adds M S S' → Held S L := by
    intro M hM hadds
    rcases hadds.held h with hL | hL
    · exact hL
    · rw [hL]; exact hM
  have hv : Held S (S.log v) := Held.node v rfl
  cases hs with
  | raise t ht => exact Or.inl (copied hv { Adds.refl _ S with })
  | campaign =>
      exact Or.inl (copied hv { Adds.refl _ S with camps := adds_insert, votes := adds_insert })
  | vote Y ℓ hc hu ho => exact Or.inl (copied hv { Adds.refl _ S with votes := adds_insert })
  | elect hc hq hn => exact Or.inl (copied hv { Adds.refl _ S with acks := adds_insert })
  | append b e hr he hi =>
      have hadds : Adds (S.log v ++ [e]) S { S with
          log := Function.update S.log v (S.log v ++ [e])
          reign := Function.update S.reign (S.term v) (some ⟨v, b, S.log v ++ [e]⟩)
          acks := insert (v, S.term v, S.log v ++ [e]) S.acks } :=
        { Adds.refl _ S with log := adds_update, acks := adds_insert }
      rcases hadds.held h with hL | hL
      · exact Or.inl hL
      · exact Or.inr ⟨b, e, hr, he, hi, hL, by simp⟩
  | capture b hr => exact Or.inl (copied hv { Adds.refl _ S with })
  | snap t₀ c₀ hc => exact Or.inl (copied hv { Adds.refl _ S with snaps := adds_insert })
  | adopt X₀ c₀ M hM =>
      have hgraft : Held S (graft M (S.log v)) := by
        rcases graft_cases M (S.log v) with hg | hg
        · rw [hg]; exact hv
        · rw [hg]; exact Held.snap X₀ _ c₀ hM
      exact Or.inl (copied hgraft { Adds.refl _ S with log := adds_update, acks := adds_insert })
  | decide b N hr hb hN hq hle => exact Or.inl (copied hv { Adds.refl _ S with })

end

/-! ## Reigns -/

/-- What a reign looks like: its base, then entries of its own term only. -/
structure Reigns (S : State ν ε) : Prop where
  base_prefix : ∀ {t r}, S.reign t = some r → r.base <+: r.log
  base_term : ∀ {t r}, S.reign t = some r → ∀ e ∈ r.base, Entry.term e < t
  own_term : ∀ {t r}, S.reign t = some r → ∀ P e, P ++ [e] <+: r.log →
    r.base.length ≤ P.length → Entry.term e = t
  /-- Until it moves on, the leader holds the log of its reign. -/
  live : ∀ {t r}, S.reign t = some r → S.term r.leader = t → S.log r.leader = r.log
  /-- The leader acknowledges its own log. -/
  self_ack : ∀ {t r}, S.reign t = some r → (r.leader, t, r.log) ∈ S.acks

/-- No entry of a leader's log is from a later term. -/
theorem Reigns.entry_term {S : State ν ε} (h : Reigns S) {t : ℕ} {r : Reign ν ε}
    (hr : S.reign t = some r) {e : ε} (he : e ∈ r.log) : Entry.term e ≤ t := by
  obtain ⟨P, hP⟩ := exists_prefix_of_mem he
  rcases Nat.lt_or_ge P.length r.base.length with hlt | hge
  · have hin : P ++ [e] <+: r.base := by
      refine List.prefix_of_prefix_length_le hP (h.base_prefix hr) ?_
      rw [List.length_append, List.length_singleton]; omega
    exact (h.base_term hr e (hin.subset (by simp))).le
  · exact (h.own_term hr P e hP hge).le

/-- Captures, snapshots and acknowledgements belong to reigns. -/
structure Sourced (S : State ν ε) : Prop where
  cap : ∀ {X t c}, (X, t, c) ∈ S.caps → ∃ r, S.reign t = some r ∧ r.leader = X
  /-- A snapshot is part of the reign's log, or its sender had moved on when it took it. -/
  snap : ∀ {X t c L}, (X, t, c, L) ∈ S.snaps →
    ∃ r, S.reign t = some r ∧ r.leader = X ∧ (L <+: r.log ∨ t < S.term X)
  ack : ∀ {v t a}, (v, t, a) ∈ S.acks → t ≤ S.term v ∧ ∃ r, S.reign t = some r

/--
A candidate whose log holds an entry of its own or a later term cannot win any
more: a quorum never voted for it and never will.
-/
def Hopeless (Q : QuorumSystem ν) (S : State ν ε) : Prop :=
  ∀ X t ℓ e, (X, t, ℓ) ∈ S.camps → e ∈ ℓ → t ≤ Entry.term e →
    Q.IsQuorum {v | (∀ m, (v, t, X, m) ∉ S.votes) ∧
      (t < S.term v ∨ ∃ Y m, Y ≠ X ∧ (v, t, Y, m) ∈ S.votes)}

/-- Everything the history says about logs. -/
structure Logs (Q : QuorumSystem ν) (S : State ν ε) : Prop where
  rooted : AllRooted S
  indexed : ∀ L, Held S L → Indexed L
  reigns : Reigns S
  sourced : Sourced S
  hopeless : Hopeless Q S

theorem logs_init : Logs Q (State.init : State ν ε) where
  rooted := allRooted_init
  indexed := by
    intro L hL P e hP
    obtain ⟨r, hr, _⟩ := allRooted_init L hL P e hP
    exact absurd hr (by simp [State.init])
  reigns := by constructor <;> intro t r h <;> exact absurd h (by simp [State.init])
  sourced := by constructor <;> intros <;> simp_all [State.init]
  hopeless := by intro X t ℓ e h; exact absurd h (by simp [State.init])

/-- **A winner's log holds no entry of its own or a later term.** -/
theorem elected_entry_term {S : State ν ε} (h : Logs Q S) {v : ν} {t : ℕ} {ℓ : List ε}
    (hc : (v, t, ℓ) ∈ S.camps) (hq : Q.IsQuorum {u | ∃ m, (u, t, v, m) ∈ S.votes}) :
    ∀ e ∈ ℓ, Entry.term e < t := by
  intro e he
  by_contra hlt
  obtain ⟨u, ⟨m, hm⟩, hno, _⟩ := Q.inter hq (h.hopeless v t ℓ e hc he (by omega))
  exact hno m hm

theorem hopeless_vote {S : State ν ε} (h : Hopeless Q S) {v X : ν}
    (ho : ∀ Y m, (v, S.term v, Y, m) ∈ S.votes → Y = X) :
    Hopeless Q { S with votes := insert (v, S.term v, X, S.log v) S.votes } := by
  intro Y t ℓ e hc he ht
  refine Q.mono ?_ (h Y t ℓ e hc he ht)
  intro u hu
  obtain ⟨hno, hother⟩ := hu
  refine ⟨?_, ?_⟩
  · intro m' hm'
    rcases Set.mem_insert_iff.mp hm' with heq | hm'
    · -- a voter written off earlier has passed the term or voted otherwise
      obtain ⟨rfl, rfl, rfl, rfl⟩ := heq
      rcases hother with hlt | ⟨Z, m, hZ, hm⟩
      · exact absurd hlt (lt_irrefl _)
      · exact hZ (ho Z m hm)
    · exact hno m' hm'
  · rcases hother with hlt | ⟨Z, m, hZ, hm⟩
    · exact Or.inl hlt
    · exact Or.inr ⟨Z, m, hZ, Set.mem_insert_of_mem _ hm⟩

variable [DecidableEq ν]

theorem allRooted_step {v : ν} {S S' : State ν ε} (h : Logs Q S) (hs : Step Q v S S') :
    AllRooted S' := by
  intro L hL
  rcases held_step hs hL with hold | ⟨b, e, hr, he, _, hLe, hr'⟩
  · exact (h.rooted L hold).mono hs.le
  · -- the fresh log is exactly the leader's new log
    intro P e' hP
    rw [hLe] at hP
    rcases List.prefix_concat_iff.mp hP with heq | hP
    · obtain ⟨rfl, hee⟩ := List.append_inj' heq rfl
      obtain rfl := List.singleton_inj.mp hee
      exact ⟨⟨v, b, S.log v ++ [e']⟩, by rw [he]; exact hr', List.prefix_rfl,
        (h.reigns.base_prefix hr).length_le⟩
    · exact (h.rooted _ (Held.node v rfl)).mono hs.le P e' hP

theorem indexed_step {v : ν} {S S' : State ν ε} (h : Logs Q S) (hs : Step Q v S S') :
    ∀ L, Held S' L → Indexed L := by
  intro L hL
  rcases held_step hs hL with hold | ⟨b, e, _, _, hi, hLe, _⟩
  · exact h.indexed L hold
  · intro P e' hP
    rw [hLe] at hP
    rcases List.prefix_concat_iff.mp hP with heq | hP
    · obtain ⟨rfl, hee⟩ := List.append_inj' heq rfl
      rw [List.singleton_inj.mp hee]; exact hi
    · exact h.indexed _ (Held.node v rfl) P e' hP

/-! ### Candidates ahead of their term -/

/-- When a candidate opens a term, a later entry in its log came from a reign it has no part in. -/
theorem hopeless_campaign {S : State ν ε} (hb : Ballots Q S) (h : Logs Q S) (v : ν) :
    Hopeless Q { S with
      term := Function.update S.term v (S.term v + 1)
      camps := insert (v, S.term v + 1, S.log v) S.camps
      votes := insert (v, S.term v + 1, v, S.log v) S.votes } := by
  have hle := (Step.campaign (Q := Q) (v := v) S).le
  intro X t ℓ e hc he ht
  rcases Set.mem_insert_iff.mp hc with heq | hc
  · obtain ⟨rfl, rfl, rfl⟩ := heq
    obtain ⟨P, hP⟩ := exists_prefix_of_mem he
    obtain ⟨r, hr, _, _⟩ := h.rooted _ (Held.node v rfl) P e hP
    have hlead : r.leader ≠ v := by
      intro hv
      have := hb.reign_term hr
      rw [hv] at this; omega
    -- the voters of that reign have all reached its term
    refine Q.mono ?_ (hb.reign_quorum hr)
    intro u hu
    obtain ⟨m, hm⟩ := hu
    have hut : Entry.term e ≤ S.term u := hb.vote_term hm
    refine ⟨?_, ?_⟩
    · intro m' hm'
      rcases Set.mem_insert_iff.mp hm' with heq | hm'
      · have huv : u = v := congrArg Prod.fst heq
        rw [huv] at hut; omega
      · obtain ⟨ℓ', hc', _⟩ := hb.vote_camp hm'
        have := hb.camp_term hc'; omega
    · rcases Nat.lt_or_ge (S.term v + 1) (Entry.term e) with hlt | hge
      · exact Or.inl (hlt.trans_le (hut.trans (hle.term u)))
      · have hteq : Entry.term e = S.term v + 1 := by omega
        rw [hteq] at hm
        exact Or.inr ⟨r.leader, m, hlead, Set.mem_insert_of_mem _ hm⟩
  · refine Q.mono ?_ (h.hopeless X t ℓ e hc he ht)
    intro u hu
    obtain ⟨hno, hother⟩ := hu
    refine ⟨?_, ?_⟩
    · intro m' hm'
      rcases Set.mem_insert_iff.mp hm' with heq | hm'
      · obtain ⟨rfl, rfl, rfl, rfl⟩ := heq
        have := hb.camp_term hc; omega
      · exact hno m' hm'
    · rcases hother with hlt | ⟨Y, m, hY, hm⟩
      · exact Or.inl (hlt.trans_le (hle.term u))
      · exact Or.inr ⟨Y, m, hY, Set.mem_insert_of_mem _ hm⟩

theorem hopeless_step {v : ν} {S S' : State ν ε} (hb : Ballots Q S) (h : Logs Q S)
    (hs : Step Q v S S') : Hopeless Q S' := by
  have hle := hs.le
  have still : S'.camps = S.camps → S'.votes = S.votes → Hopeless Q S' := by
    intro hc hv X t ℓ e hX he ht
    rw [hc] at hX
    refine Q.mono ?_ (h.hopeless X t ℓ e hX he ht)
    intro u hu
    rw [hv]
    exact ⟨hu.1, hu.2.imp (fun hlt => hlt.trans_le (hle.term u)) id⟩
  cases hs with
  | raise t ht => exact still rfl rfl
  | campaign => exact hopeless_campaign hb h v
  | vote X ℓ hc hu ho => exact hopeless_vote h.hopeless ho
  | elect hc hq hn => exact still rfl rfl
  | append b e hr he hi => exact still rfl rfl
  | capture b hr => exact still rfl rfl
  | snap t c hc => exact still rfl rfl
  | adopt X c L hs => exact still rfl rfl
  | decide b N hr hb hN hq hle => exact still rfl rfl

/-! ### Reigns and their records along a step -/

omit [DecidableEq ν] in
/-- A new reign begins with the log of its leader. -/
theorem reigns_elect {S : State ν ε} (h : Logs Q S) {v : ν}
    (hc : (v, S.term v, S.log v) ∈ S.camps)
    (hq : Q.IsQuorum {u | ∃ m, (u, S.term v, v, m) ∈ S.votes}) :
    Reigns { S with
      reign := Function.update S.reign (S.term v) (some ⟨v, S.log v, S.log v⟩)
      acks := insert (v, S.term v, S.log v) S.acks } where
  base_prefix hr := by
    rcases update_cases hr with ⟨_, hnew⟩ | ⟨_, hr⟩
    · rw [← Option.some.inj hnew]
    · exact h.reigns.base_prefix hr
  base_term hr := by
    rcases update_cases hr with ⟨rfl, hnew⟩ | ⟨_, hr⟩
    · rw [← Option.some.inj hnew]; exact elected_entry_term h hc hq
    · exact h.reigns.base_term hr
  own_term hr P e hP hlen := by
    rcases update_cases hr with ⟨_, hnew⟩ | ⟨_, hr⟩
    · obtain rfl := Option.some.inj hnew
      have := hP.length_le
      rw [List.length_append, List.length_singleton] at this
      dsimp only at hlen this; omega
    · exact h.reigns.own_term hr P e hP hlen
  live hr ht := by
    rcases update_cases hr with ⟨_, hnew⟩ | ⟨_, hr⟩
    · rw [← Option.some.inj hnew]
    · exact h.reigns.live hr ht
  self_ack hr := by
    rcases update_cases hr with ⟨rfl, hnew⟩ | ⟨_, hr⟩
    · rw [← Option.some.inj hnew]; exact Set.mem_insert _ _
    · exact Set.mem_insert_of_mem _ (h.reigns.self_ack hr)

/-- A reign grows by an entry of its term. -/
theorem reigns_append {S : State ν ε} (h : Logs Q S) {v : ν} {b : List ε} {e : ε}
    (hr₀ : S.reign (S.term v) = some ⟨v, b, S.log v⟩) (he : Entry.term e = S.term v) :
    Reigns { S with
      log := Function.update S.log v (S.log v ++ [e])
      reign := Function.update S.reign (S.term v) (some ⟨v, b, S.log v ++ [e]⟩)
      acks := insert (v, S.term v, S.log v ++ [e]) S.acks } where
  base_prefix hr := by
    rcases update_cases hr with ⟨_, hnew⟩ | ⟨_, hr⟩
    · rw [← Option.some.inj hnew]
      exact (h.reigns.base_prefix hr₀).trans (List.prefix_append _ _)
    · exact h.reigns.base_prefix hr
  base_term hr := by
    rcases update_cases hr with ⟨rfl, hnew⟩ | ⟨_, hr⟩
    · rw [← Option.some.inj hnew]
      intro e' he'; exact h.reigns.base_term hr₀ e' he'
    · exact h.reigns.base_term hr
  own_term hr P e' hP hlen := by
    rcases update_cases hr with ⟨rfl, hnew⟩ | ⟨_, hr⟩
    · obtain rfl := Option.some.inj hnew
      rcases List.prefix_concat_iff.mp hP with heq | hP
      · obtain ⟨_, hee⟩ := List.append_inj' heq rfl
        rw [List.singleton_inj.mp hee]; exact he
      · exact h.reigns.own_term hr₀ P e' hP hlen
    · exact h.reigns.own_term hr P e' hP hlen
  live {t r} hr ht := by
    rcases update_cases hr with ⟨_, hnew⟩ | ⟨hne, hr⟩
    · rw [← Option.some.inj hnew]; simp
    · -- a leader of another term is another node, or this one long past it
      have hlv : r.leader ≠ v := by intro hv; rw [hv] at ht; exact hne ht.symm
      dsimp only
      rw [Function.update_of_ne hlv]; exact h.reigns.live hr ht
  self_ack hr := by
    rcases update_cases hr with ⟨rfl, hnew⟩ | ⟨_, hr⟩
    · rw [← Option.some.inj hnew]; exact Set.mem_insert _ _
    · exact Set.mem_insert_of_mem _ (h.reigns.self_ack hr)

theorem reigns_step {v : ν} {S S' : State ν ε} (hb : Ballots Q S) (h : Logs Q S)
    (hs : Step Q v S S') : Reigns S' := by
  have hle := hs.le
  -- steps that change no reign, given that leaders still in office keep their log
  have still : S'.reign = S.reign →
      (∀ t r, S.reign t = some r → S'.term r.leader = t → S'.log r.leader = r.log) →
      Reigns S' := by
    intro hr hlive
    refine ⟨?_, ?_, ?_, ?_, ?_⟩
    · intro t r h'; rw [hr] at h'; exact h.reigns.base_prefix h'
    · intro t r h'; rw [hr] at h'; exact h.reigns.base_term h'
    · intro t r h'; rw [hr] at h'; exact h.reigns.own_term h'
    · intro t r h'; rw [hr] at h'; exact hlive t r h'
    · intro t r h'; rw [hr] at h'; exact hle.acks (h.reigns.self_ack h')
  cases hs with
  | raise t₀ ht₀ =>
      refine still rfl ?_
      intro t r hr ht
      refine h.reigns.live hr (le_antisymm ?_ (hb.reign_term hr))
      rw [← ht]; exact hle.term _
  | campaign =>
      refine still rfl ?_
      intro t r hr ht
      refine h.reigns.live hr (le_antisymm ?_ (hb.reign_term hr))
      rw [← ht]; exact hle.term _
  | vote X ℓ hc hu ho => exact still rfl fun t r => h.reigns.live
  | elect hc hq hn => exact reigns_elect h hc hq
  | append b e hr he hi => exact reigns_append h hr he
  | capture b hr => exact still rfl fun t r => h.reigns.live
  | snap t c hc => exact still rfl fun t r => h.reigns.live
  | adopt X c L hs =>
      refine still rfl ?_
      intro t r hr ht
      dsimp only at ht ⊢
      by_cases hlv : r.leader = v
      · -- a leader in office only ever sees its own earlier snapshots
        rw [hlv] at ht
        subst ht
        obtain ⟨r', hr', _, hL⟩ := h.sourced.snap hs
        rw [hr] at hr'
        obtain rfl := Option.some.inj hr'
        have hlog : S.log v = r.log := by
          have := h.reigns.live hr (by rw [hlv]); rwa [hlv] at this
        rw [hlv, Function.update_self]
        rcases hL with hL | hlt
        · rw [graft_eq_right (by rw [hlog]; exact hL)]; exact hlog
        · rename_i hX; rw [← hX, hlv] at hlt; exact absurd hlt (lt_irrefl _)
      · rw [Function.update_of_ne hlv]; exact h.reigns.live hr ht
  | decide b N hr hb hN hq hle => exact still rfl fun t r => h.reigns.live

theorem sourced_step {v : ν} {S S' : State ν ε} (hb : Ballots Q S) (h : Logs Q S)
    (hs : Step Q v S S') : Sourced S' := by
  have hle := hs.le
  -- what is on record keeps its reign; a step adds one record at most, of a reign at hand
  have oldCap : ∀ {X t c}, (X, t, c) ∈ S.caps → ∃ r, S'.reign t = some r ∧ r.leader = X := by
    intro X t c hc
    obtain ⟨r, hr, hl⟩ := h.sourced.cap hc
    obtain ⟨r', hr', hl', _, _⟩ := hle.reign t r hr
    exact ⟨r', hr', hl'.trans hl⟩
  have oldSnap : ∀ {X t c L}, (X, t, c, L) ∈ S.snaps →
      ∃ r, S'.reign t = some r ∧ r.leader = X ∧ (L <+: r.log ∨ t < S'.term X) := by
    intro X t c L hc
    obtain ⟨r, hr, hl, hL⟩ := h.sourced.snap hc
    obtain ⟨r', hr', hl', _, hp⟩ := hle.reign t r hr
    exact ⟨r', hr', hl'.trans hl,
      hL.imp (fun h' => h'.trans hp) (fun h' => h'.trans_le (hle.term X))⟩
  have oldAck : ∀ {u t a}, (u, t, a) ∈ S.acks → t ≤ S'.term u ∧ ∃ r, S'.reign t = some r := by
    intro u t a ha
    obtain ⟨ht, r, hr⟩ := h.sourced.ack ha
    obtain ⟨r', hr', _⟩ := hle.reign t r hr
    exact ⟨ht.trans (hle.term u), r', hr'⟩
  cases hs with
  | raise t ht => exact ⟨oldCap, oldSnap, oldAck⟩
  | campaign => exact ⟨oldCap, oldSnap, oldAck⟩
  | vote X ℓ hc hu ho => exact ⟨oldCap, oldSnap, oldAck⟩
  | elect hc hq hn =>
      refine ⟨oldCap, oldSnap, ?_⟩
      intro u t a ha
      rcases Set.mem_insert_iff.mp ha with heq | ha
      · obtain ⟨rfl, rfl, rfl⟩ := heq; exact ⟨le_rfl, _, Function.update_self _ _ _⟩
      · exact oldAck ha
  | append b e hr he hi =>
      refine ⟨oldCap, oldSnap, ?_⟩
      intro u t a ha
      rcases Set.mem_insert_iff.mp ha with heq | ha
      · obtain ⟨rfl, rfl, rfl⟩ := heq; exact ⟨le_rfl, _, Function.update_self _ _ _⟩
      · exact oldAck ha
  | capture b hr =>
      refine ⟨?_, oldSnap, oldAck⟩
      intro X t c hc
      rcases Set.mem_insert_iff.mp hc with heq | hc
      · obtain ⟨rfl, rfl, rfl⟩ := heq; exact ⟨_, hr, rfl⟩
      · exact oldCap hc
  | snap t₀ c₀ hcap =>
      refine ⟨oldCap, ?_, oldAck⟩
      intro X t c L hc
      rcases Set.mem_insert_iff.mp hc with heq | hc
      · obtain ⟨rfl, rfl, rfl, rfl⟩ := heq
        obtain ⟨r, hr, rfl⟩ := h.sourced.cap hcap
        refine ⟨r, hr, rfl, ?_⟩
        rcases Nat.lt_or_ge t₀ (S.term r.leader) with hlt | hge
        · exact Or.inr hlt
        · left
          rw [h.reigns.live hr (le_antisymm hge (hb.reign_term hr))]
      · exact oldSnap hc
  | adopt X c L hs =>
      refine ⟨oldCap, oldSnap, ?_⟩
      intro u t a ha
      rcases Set.mem_insert_iff.mp ha with heq | ha
      · obtain ⟨rfl, rfl, rfl⟩ := heq
        obtain ⟨r, hr, _⟩ := h.sourced.snap hs
        exact ⟨le_rfl, r, hr⟩
      · exact oldAck ha
  | decide b N hr hb hN hq hle => exact ⟨oldCap, oldSnap, oldAck⟩

/-- **The log invariants are preserved by every step.** -/
theorem logs_step {v : ν} {S S' : State ν ε} (hb : Ballots Q S) (h : Logs Q S)
    (hs : Step Q v S S') : Logs Q S' :=
  ⟨allRooted_step h hs, indexed_step h hs, reigns_step hb h hs, sourced_step hb h hs, hopeless_step hb h hs⟩

end GammaFlow.Consensus
