import FilterShell.Proofs.Value.Answers
import FilterShell.Proofs.Value.Discipline

/-!
# Running side by side

Two computations run side by side in two stores (`Abreast`, and `Parallel` for computations that may fail):
if the stores are related in some way, the outcomes are the same and the stores are related like this again.
That a computation runs side by side with itself is a discipline, for every relation of stores (`side`).
-/

namespace FilterShell

open Reading

variable {α β : Type} {Rel : Store → Store → Prop}

/-- In stores that are related the computations have the same result, which satisfies `P`, and leave stores
that are related. -/
def Abreast (Rel : Store → Store → Prop) (m m' : StateM Store α) (P : α → Prop) : Prop :=
  ∀ s s' : Store, Rel s s' → (m'.run s').1 = (m.run s).1 ∧ Rel (m.run s).2 (m'.run s').2 ∧ P (m.run s).1

/-- In stores that are related the computations have the same outcome and leave stores that are related;
what they give satisfies `P` if they do not fail. -/
def Parallel (Rel : Store → Store → Prop) (r r' : Reading α) (P : α → Prop) : Prop :=
  Abreast Rel r.outcome r'.outcome fun e => ∀ a, e = .ok a → P a

namespace Abreast

variable {m m' : StateM Store α} {k k' : α → StateM Store β} {P : α → Prop} {Q : β → Prop}

theorem pure {a : α} (h : P a) : Abreast Rel (pure a) (pure a) P := fun _ _ hs => ⟨rfl, hs, h⟩

theorem bind (hm : Abreast Rel m m' P) (hk : ∀ a, P a → Abreast Rel (k a) (k' a) Q) :
    Abreast Rel (m >>= k) (m' >>= k') Q := by
  intro s s' hs
  obtain ⟨hsame, hrel, hP⟩ := hm s s' hs
  rw [StateT.run_bind, StateT.run_bind]
  generalize m.run s = x at hsame hrel hP ⊢
  generalize m'.run s' = x' at hsame hrel ⊢
  obtain ⟨a, s₁⟩ := x
  obtain ⟨a', s₁'⟩ := x'
  obtain rfl : a' = a := hsame
  exact hk a' hP s₁ s₁' hrel

end Abreast

namespace Parallel

variable {r r' : Reading α} {k k' : α → Reading β} {P : α → Prop} {Q : β → Prop}

theorem pure {a : α} (h : P a) : Parallel Rel (pure a) (pure a) P := by
  refine Abreast.pure ?_
  rintro _ ⟨⟩
  exact h

theorem throw (f : Fault) : Parallel Rel (throw f : Reading α) (throw f) P :=
  Abreast.pure (by rintro _ ⟨⟩)

theorem imp {Q : α → Prop} (hr : Parallel Rel r r' P) (h : ∀ a, P a → Q a) : Parallel Rel r r' Q := by
  intro s s' hs
  obtain ⟨hsame, hrel, hP⟩ := hr s s' hs
  exact ⟨hsame, hrel, fun a ha => h a (hP a ha)⟩

theorem bind (hr : Parallel Rel r r' P) (hk : ∀ a, P a → Parallel Rel (k a) (k' a) Q) :
    Parallel Rel (r >>= k) (r' >>= k') Q := by
  change Abreast Rel (r.outcome >>= ExceptT.bindCont k) (r'.outcome >>= ExceptT.bindCont k') _
  refine Abreast.bind hr fun e he => ?_
  cases e with
  | error f => exact Abreast.pure (by rintro _ ⟨⟩)
  | ok a => exact hk a (he a rfl)

theorem rescue {handler : Fault → Reading α} (hr : Parallel Rel r r' P)
    (hhandler : ∀ f, Parallel Rel (handler f) (handler f) P) :
    Parallel Rel (tryCatch r handler) (tryCatch r' handler) P := by
  intro s s' hs
  obtain ⟨hsame, hrel, hP⟩ := hr s s' hs
  rw [run_tryCatch, run_tryCatch]
  generalize r.outcome.run s = x at hsame hrel hP ⊢
  generalize r'.outcome.run s' = x' at hsame hrel ⊢
  obtain ⟨e, s₁⟩ := x
  obtain ⟨e', s₁'⟩ := x'
  obtain rfl : e' = e := hsame
  cases e' with
  | error f => exact hhandler f s₁ s₁' hrel
  | ok a => exact ⟨rfl, hrel, hP⟩

/-- Values that are equal to and less than the same data compare alike with it. -/
theorem compareGiven {a b : Value} {g : Given}
    (hequal : Parallel Rel (a.equalGiven g) (b.equalGiven g) fun _ => True)
    (hnot : Parallel Rel (a.notEqualGiven g) (b.notEqualGiven g) fun _ => True)
    (hless : Parallel Rel (a.lessGiven g) (b.lessGiven g) fun _ => True) (c : Comparison) :
    Parallel Rel (a.compareGiven c g) (b.compareGiven c g) fun _ => True := by
  cases c with
  | equal => exact hequal
  | notEqual => exact hnot
  | less => exact hless
  | greater =>
    refine hless.bind fun b _ => ?_
    split
    · exact .pure trivial
    · exact hnot
  | lessOrEqual =>
    refine hless.bind fun b _ => ?_
    split
    · exact .pure trivial
    · exact hequal
  | greaterOrEqual => exact hless.bind fun _ _ => .pure trivial

end Parallel

/-- To run side by side with oneself, as a discipline. -/
def side (Rel : Store → Store → Prop) : Discipline where
  holds r P := Parallel Rel r r P
  pure := .pure
  throw := .throw
  bind := .bind
  rescue := .rescue

end FilterShell
