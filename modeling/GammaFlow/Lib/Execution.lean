import Mathlib.Data.List.Induction
import Mathlib.Logic.Relation

/-!
# Runs of an executable transition system

A system is a partial function `step` from a state and a label to the next state.
`Run` is reachability under any labels; `exec` follows a given list of them, so that
a run can be computed; `Always` speaks of every step on the way.
-/

namespace GammaFlow.Execution

variable {σ α : Type}

/-- One step, whatever its label. -/
def Step (step : σ → α → Option σ) (s s' : σ) : Prop := ∃ a, step s a = some s'

def Run (step : σ → α → Option σ) : σ → σ → Prop := Relation.ReflTransGen (Step step)

/-- The state after a list of labels, if all of them are enabled in turn. -/
def exec (step : σ → α → Option σ) (s : σ) : List α → Option σ
  | [] => some s
  | a :: as => (step s a).bind fun s' => exec step s' as

/-- Every step that `exec` takes satisfies `P`. -/
def Always (step : σ → α → Option σ) (P : σ → α → σ → Prop) (s : σ) : List α → Prop
  | [] => True
  | a :: as => ∀ s', step s a = some s' → P s a s' ∧ Always step P s' as

variable {step : σ → α → Option σ} {s s' : σ}

theorem exec_cons {a : α} {as : List α} :
    exec step s (a :: as) = some s' ↔ ∃ s₁, step s a = some s₁ ∧ exec step s₁ as = some s' := by
  rw [exec, Option.bind_eq_some_iff]

theorem always_cons {P : σ → α → σ → Prop} {a : α} {as : List α} {s₁ : σ} (h : step s a = some s₁) :
    Always step P s (a :: as) ↔ P s a s₁ ∧ Always step P s₁ as := by
  rw [Always]
  constructor
  · intro hall; exact hall s₁ h
  · intro hall s₂ h₂
    rw [h] at h₂
    rw [← Option.some.inj h₂]; exact hall

/-- Whether every step satisfies a decidable `P` can be found out by taking them. -/
instance decidableAlways {P : σ → α → σ → Prop} [∀ s a s', Decidable (P s a s')] :
    ∀ (as : List α) (s : σ), Decidable (Always step P s as)
  | [], _ => isTrue trivial
  | a :: as, s =>
      match h : step s a with
      | none => isTrue fun s' hs => absurd (h.symm.trans hs) (by simp)
      | some s₁ =>
          have := decidableAlways (P := P) as s₁
          decidable_of_iff (P s a s₁ ∧ Always step P s₁ as) (always_cons h).symm

/--
What every step that satisfies `P` satisfies if it starts in `I`, a run of such steps satisfies
throughout, provided they keep `I`.
-/
theorem Always.mono {I : σ → Prop} {P Q : σ → α → σ → Prop}
    (hPQ : ∀ s a s', step s a = some s' → I s → P s a s' → Q s a s' ∧ I s') :
    ∀ {as : List α} {s : σ}, I s → Always step P s as → Always step Q s as := by
  intro as
  induction as with
  | nil => intro s _ _; trivial
  | cons a as ih =>
      intro s hI h s' hs
      obtain ⟨hP, htail⟩ := h s' hs
      obtain ⟨hQ, hI'⟩ := hPQ s a s' hs hI hP
      exact ⟨hQ, ih hI' htail⟩

theorem run_of_exec : ∀ {as : List α} {s : σ}, exec step s as = some s' → Run step s s' := by
  intro as
  induction as with
  | nil => intro s h; rw [Option.some.inj h]; exact Relation.ReflTransGen.refl
  | cons a as ih =>
      intro s h
      obtain ⟨s₁, h₁, h₂⟩ := exec_cons.mp h
      exact Relation.ReflTransGen.head ⟨a, h₁⟩ (ih h₂)

/-- **The invariant rule.** A step may use that it starts in a state of the run. -/
@[elab_as_elim]
theorem Run.invariant {I : σ → Prop} (hr : Run step s s') (h : I s)
    (hstep : ∀ s₁ a s₂, Run step s s₁ → I s₁ → step s₁ a = some s₂ → I s₂) : I s' := by
  induction hr with
  | refl => exact h
  | tail hr hs ih =>
      obtain ⟨a, ha⟩ := hs
      exact hstep _ a _ hr ih ha

theorem exec_append {as bs : List α} : ∀ {s : σ}, exec step s (as ++ bs) = some s' ↔
    ∃ s₁, exec step s as = some s₁ ∧ exec step s₁ bs = some s' := by
  induction as with
  | nil => intro s; simp [exec]
  | cons a as ih =>
      intro s
      rw [List.cons_append, exec_cons]
      constructor
      · rintro ⟨s₁, h₁, h⟩
        obtain ⟨s₂, h₂, h⟩ := ih.mp h
        exact ⟨s₂, exec_cons.mpr ⟨s₁, h₁, h₂⟩, h⟩
      · rintro ⟨s₂, h₂, h⟩
        obtain ⟨s₁, h₁, h₂⟩ := exec_cons.mp h₂
        exact ⟨s₁, h₁, ih.mpr ⟨s₂, h₂, h⟩⟩

theorem exec_snoc {as : List α} {a : α} {s₁ : σ} (h : exec step s as = some s₁)
    (ha : step s₁ a = some s') : exec step s (as ++ [a]) = some s' :=
  exec_append.mpr ⟨s₁, h, exec_cons.mpr ⟨s', ha, rfl⟩⟩

/-- The invariant rule for a list of labels, of which the invariant may speak. -/
theorem exec_invariant {I : List α → σ → Prop} (h : I [] s)
    (hstep : ∀ as s₁ a s₂, exec step s as = some s₁ → I as s₁ → step s₁ a = some s₂ →
      I (as ++ [a]) s₂) : ∀ {as : List α} {s' : σ}, exec step s as = some s' → I as s' := by
  intro as
  induction as using List.reverseRecOn with
  | nil => intro s' hx; rw [← Option.some.inj hx]; exact h
  | append_singleton as a ih =>
      intro s' hx
      obtain ⟨s₁, h₁, h₂⟩ := exec_append.mp hx
      obtain ⟨s₂, ha, hend⟩ := exec_cons.mp h₂
      rw [← Option.some.inj hend]
      exact hstep as s₁ a s₂ h₁ (ih h₁) ha

/--
The invariant rule for a run all of whose steps satisfy `P`. The invariant may speak of
the labels so far.
-/
theorem Always.invariant {P : σ → α → σ → Prop} {I : List α → σ → Prop} (h : I [] s)
    (hstep : ∀ as s₁ a s₂, exec step s as = some s₁ → I as s₁ → P s₁ a s₂ →
      step s₁ a = some s₂ → I (as ++ [a]) s₂) {as : List α} (ha : Always step P s as)
    (hx : exec step s as = some s') : I as s' := by
  have key : ∀ (as done : List α) (s₀ : σ), exec step s done = some s₀ → I done s₀ →
      Always step P s₀ as → exec step s₀ as = some s' → I (done ++ as) s' := by
    intro as
    induction as with
    | nil =>
        intro done s₀ _ hI _ hx
        rw [List.append_nil, ← Option.some.inj hx]
        exact hI
    | cons a as ih =>
        intro done s₀ hdone hI ha hx
        obtain ⟨s₁, h₁, hx⟩ := exec_cons.mp hx
        obtain ⟨hP, ha⟩ := (always_cons h₁).mp ha
        have hnext := ih (done ++ [a]) s₁ (exec_snoc hdone h₁) (hstep done s₀ a s₁ hdone hI hP h₁) ha hx
        rwa [List.append_assoc] at hnext
  exact key as [] s rfl h ha hx

end GammaFlow.Execution
