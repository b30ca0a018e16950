import FilterShell.Value.Store

/-!
# Results of computations

Computations work on a store, and what comes of them depends on it.  `Always` says what holds of the result
whatever the store is, and `Delivers` what holds of it if the computation does not fail.  Both go through a
computation step by step.
-/

namespace FilterShell

variable {ε α β : Type}

/-- Whatever the store is, what the computation gives satisfies `P`. -/
def Always (x : StateM Store α) (P : α → Prop) : Prop := ∀ s, P (x.run s).1

theorem always_pure {a : α} {P : α → Prop} (h : P a) : Always (pure a) P := fun _ => h

theorem Always.bind {x : StateM Store α} {next : α → StateM Store β} {P : α → Prop} {Q : β → Prop}
    (hx : Always x P) (hnext : ∀ a, P a → Always (next a) Q) : Always (x >>= next) Q :=
  fun s => hnext _ (hx s) _

theorem always_bind {x : StateM Store α} {next : α → StateM Store β} {Q : β → Prop}
    (hnext : ∀ a, Always (next a) Q) : Always (x >>= next) Q :=
  fun _ => hnext _ _

theorem run_andThen (x : StateM Store α) (next : α → StateM Store β) (s : Store) :
    (x >>= next).run s = (next (x.run s).1).run (x.run s).2 := rfl

/-- What the computation gives, if it gives anything, satisfies `P`. -/
def Delivers (x : ExceptT ε (StateM Store) α) (P : α → Prop) : Prop :=
  Always x.run fun r => ∀ a, r = .ok a → P a

theorem delivers_pure {a : α} {P : α → Prop} (h : P a) :
    Delivers (pure a : ExceptT ε (StateM Store) α) P := by
  rintro _ _ ⟨⟩
  exact h

theorem delivers_throw {e : ε} {P : α → Prop} :
    Delivers (throw e : ExceptT ε (StateM Store) α) P := by
  rintro _ _ ⟨⟩

theorem Delivers.bind {x : ExceptT ε (StateM Store) α} {next : α → ExceptT ε (StateM Store) β}
    {P : α → Prop} {Q : β → Prop} (hx : Delivers x P) (hnext : ∀ a, P a → Delivers (next a) Q) :
    Delivers (x >>= next) Q := by
  intro s b hb
  rw [ExceptT.run_bind, run_andThen] at hb
  cases hr : (x.run.run s).1 with
  | error e =>
    rw [hr] at hb
    cases hb
  | ok a =>
    rw [hr] at hb
    exact hnext a (hx s a hr) _ b hb

theorem delivers_any (x : ExceptT ε (StateM Store) α) : Delivers x fun _ => True :=
  fun _ _ _ => trivial

theorem delivers_bind {x : ExceptT ε (StateM Store) α} {next : α → ExceptT ε (StateM Store) β}
    {Q : β → Prop} (hnext : ∀ a, Delivers (next a) Q) : Delivers (x >>= next) Q :=
  (delivers_any x).bind fun a _ => hnext a

theorem Delivers.rescue {x : ExceptT ε (StateM Store) α} {handler : ε → ExceptT ε (StateM Store) α}
    {P : α → Prop} (hx : Delivers x P) (hhandler : ∀ e, Delivers (handler e) P) :
    Delivers (tryCatch x handler) P := by
  intro s a ha
  rw [ExceptT.run_tryCatch, run_andThen] at ha
  cases hr : (x.run.run s).1 with
  | error e =>
    rw [hr] at ha
    exact hhandler e _ a ha
  | ok b =>
    rw [hr] at ha
    cases ha
    exact hx s a hr

end FilterShell
