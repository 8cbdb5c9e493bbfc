import Mathlib.Data.List.Infix
import Mathlib.Logic.Function.Basic
import GammaFlow.Lib.Execution

/-!
# A replicated state machine, abstractly

What a replicated log is for: there is one history of commands, which only grows at its
end, and every replica has executed a first part of it, in order. How the history comes
about, and how the commands reach the replicas, is not said here.

The state a replica is in is not part of the state of the machine: it is what the first
commands of the history make of the initial state. So two replicas that have come
equally far are in the same state, then and later (`replica_agree`).
-/

namespace GammaFlow.ReplicatedMachine

variable {ι κ σ : Type}

/-- The history, and how far each replica has come in it. -/
structure State (ι κ : Type) where
  history : List κ
  position : ι → Nat
  within : ∀ i, position i ≤ history.length

/-- The history grows by a command, or a replica executes the next one. -/
inductive Label (ι κ : Type) where
  | commit (c : κ)
  | execute (i : ι)
  deriving DecidableEq, Repr

namespace State

def init : State ι κ := ⟨[], fun _ => 0, fun _ => Nat.le_refl _⟩

theorem within_commit (m : State ι κ) (c : κ) (i : ι) :
    m.position i ≤ (m.history ++ [c]).length := by
  have := m.within i
  rw [List.length_append]
  omega

theorem within_execute [DecidableEq ι] (m : State ι κ) {i : ι}
    (h : m.position i < m.history.length) (j : ι) :
    Function.update m.position i (m.position i + 1) j ≤ m.history.length := by
  by_cases hj : j = i
  · rw [hj, Function.update_self]; exact h
  · rw [Function.update_of_ne hj]; exact m.within j

def step [DecidableEq ι] (m : State ι κ) : Label ι κ → Option (State ι κ)
  | .commit c => some ⟨m.history ++ [c], m.position, m.within_commit c⟩
  | .execute i =>
      if h : m.position i < m.history.length then
        some ⟨m.history, Function.update m.position i (m.position i + 1), m.within_execute h⟩
      else none

/-- The state of a replica. -/
def replica (apply : σ → κ → σ) (s₀ : σ) (m : State ι κ) (i : ι) : σ :=
  (m.history.take (m.position i)).foldl apply s₀

@[ext]
theorem ext {m m' : State ι κ} (hh : m.history = m'.history) (hp : m.position = m'.position) :
    m = m' := by
  obtain ⟨_, _, _⟩ := m
  obtain ⟨_, _, _⟩ := m'
  subst hh hp
  rfl

end State

variable [DecidableEq ι] {m m' : State ι κ}

/-- A run of the machine. -/
def Run : State ι κ → State ι κ → Prop := Execution.Run State.step

/-! ## What runs do -/

/-- Histories only grow at their end, and nobody goes back in them. -/
theorem Run.mono (h : Run m m') :
    m.history <+: m'.history ∧ ∀ i, m.position i ≤ m'.position i := by
  refine Execution.Run.invariant h ⟨List.prefix_rfl, fun _ => Nat.le_refl _⟩ ?_
  intro m₁ a m₂ _ ih hs
  cases a with
  | commit c =>
      obtain rfl := Option.some.inj hs
      exact ⟨ih.1.trans (List.prefix_append _ _), ih.2⟩
  | execute i =>
      rw [State.step] at hs
      split at hs
      · obtain rfl := Option.some.inj hs
        refine ⟨ih.1, fun j => Nat.le_trans (ih.2 j) ?_⟩
        dsimp only
        by_cases hj : j = i
        · rw [hj, Function.update_self]; exact Nat.le_succ _
        · rw [Function.update_of_ne hj]
      · exact absurd hs (by simp)

/-- The history may grow by any number of commands. -/
theorem run_commit (cs : List κ) : ∀ {m m' : State ι κ}, m'.history = m.history ++ cs →
    m'.position = m.position → Run m m' := by
  induction cs with
  | nil =>
      intro m m' hh hp
      rw [List.append_nil] at hh
      rw [State.ext hh hp]
      exact Relation.ReflTransGen.refl
  | cons c cs ih =>
      intro m m' hh hp
      refine Relation.ReflTransGen.head ⟨.commit c, rfl⟩ (ih ?_ hp)
      rw [hh, List.append_assoc]
      rfl

/-- A replica may execute the next command. -/
theorem run_execute {i : ι} (h : m.position i < m.history.length) (hh : m'.history = m.history)
    (hp : m'.position = Function.update m.position i (m.position i + 1)) : Run m m' := by
  refine Relation.ReflTransGen.single ⟨.execute i, ?_⟩
  rw [State.step, dif_pos h]
  exact congrArg some (State.ext hh.symm hp.symm)

/-! ## Replicas -/

variable {apply : σ → κ → σ} {s₀ : σ}

/-- **Replicas that have come equally far are in the same state**, whenever that is. -/
theorem replica_agree (h : Run m m') {i j : ι} (hp : m.position i = m'.position j) :
    m.replica apply s₀ i = m'.replica apply s₀ j := by
  obtain ⟨rest, hrest⟩ := h.mono.1
  unfold State.replica
  rw [← hp, ← hrest, List.take_append_of_le_length (m.within i)]

/-! ## Histories known in parts -/

/-- The longest of several lists. -/
def longest : List (List κ) → List κ
  | [] => []
  | l :: ls => if (longest ls).length ≤ l.length then l else longest ls

theorem longest_cases : ∀ ls : List (List κ), longest ls = [] ∨ longest ls ∈ ls := by
  intro ls
  induction ls with
  | nil => exact Or.inl rfl
  | cons l ls ih =>
      rw [longest]
      split
      · exact Or.inr (List.mem_cons_self)
      · exact ih.imp_right (List.mem_cons_of_mem l)

theorem length_le_longest {l : List κ} : ∀ {ls : List (List κ)}, l ∈ ls →
    l.length ≤ (longest ls).length := by
  intro ls
  induction ls with
  | nil => intro h; exact absurd h (by simp)
  | cons a ls ih =>
      intro h
      rw [longest]
      rcases List.mem_cons.mp h with rfl | h
      · split
        · exact Nat.le_refl _
        · omega
      · have := ih h
        split
        · omega
        · exact this

/-- Of lists that are all parts of one, the longest holds the others. -/
theorem prefix_longest {ls : List (List κ)} (h : ∀ a ∈ ls, ∀ b ∈ ls, a <+: b ∨ b <+: a)
    {l : List κ} (hl : l ∈ ls) : l <+: longest ls := by
  have hle := length_le_longest hl
  rcases longest_cases ls with hnil | hmem
  · rw [hnil] at hle ⊢
    rw [List.length_eq_zero_iff.mp (Nat.le_zero.mp hle)]
  · rcases h l hl _ hmem with hp | hp
    · exact hp
    · rw [hp.eq_of_length (Nat.le_antisymm hp.length_le hle)]

end GammaFlow.ReplicatedMachine
