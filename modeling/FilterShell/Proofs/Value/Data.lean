import FilterShell.Decimal.Order
import FilterShell.Value.Datum
import Mathlib.Data.List.Basic

/-!
# Data up to order

Two data are the `Same` if they differ only in the order of entries and in how equal numbers are given.
What is the same as a datum made of certain texts, with no exception in it and nothing but texts for keys,
is made of them too (`Same.madeOf`).
-/

namespace FilterShell

/-- The number is within the limits of exact numbers. -/
def Decimal.Bounded : Decimal → Prop
  | .finite negative m e => (bounded? negative m e).isSome
  | _                    => True

namespace Datum

/-- The datum is made of such numbers and texts, without exceptions, and all keys are texts. -/
inductive MadeOf (N : Decimal → Prop) (T : Text → Prop) : Datum → Prop
  | null : MadeOf N T .null
  | bool (b : Bool) : MadeOf N T (.bool b)
  | number {d : Decimal} (h : N d) : MadeOf N T (.number d)
  | text {t : Text} (h : T t) : MadeOf N T (.text t)
  | list {items : List Datum} (h : ∀ x ∈ items, MadeOf N T x) : MadeOf N T (.list items)
  | object {entries : List (Datum × Datum)} (hkeys : ∀ e ∈ entries, ∃ k, e.1 = .text k ∧ T k)
      (hvalues : ∀ e ∈ entries, MadeOf N T e.2) : MadeOf N T (.object entries)

/-- The same datum, up to the order of entries; numbers are compared by value. -/
inductive Same : Datum → Datum → Prop
  | exception (e : Exception) : Same (.exception e) (.exception e)
  | null : Same .null .null
  | bool (b : Bool) : Same (.bool b) (.bool b)
  | number {c d : Decimal} (h : c.compare d = .eq) : Same (.number c) (.number d)
  | text (t : Text) : Same (.text t) (.text t)
  /-- The rows are the items at one place. -/
  | list {items items' : List Datum} {rows : List (Datum × Datum)} (hleft : rows.map (·.1) = items)
      (hright : rows.map (·.2) = items') (h : ∀ r ∈ rows, Same r.1 r.2) :
      Same (.list items) (.list items')
  /-- The rows are the entries that belong together. -/
  | object {entries entries' : List (Datum × Datum)} {rows : List ((Datum × Datum) × (Datum × Datum))}
      (hleft : (rows.map (·.1)).Perm entries) (hright : (rows.map (·.2)).Perm entries')
      (hkeys : ∀ r ∈ rows, Same r.1.1 r.2.1) (hvalues : ∀ r ∈ rows, Same r.1.2 r.2.2) :
      Same (.object entries) (.object entries')

/-- The keys that are texts stand in increasing order. -/
def Increasing (entries : List (Datum × Datum)) : Prop :=
  entries.Pairwise fun e f => ∀ k l, e.1 = .text k → f.1 = .text l → k.lt l

/-- The keys of all objects are texts in increasing order. -/
inductive Ordered : Datum → Prop
  | exception (e : Exception) : Ordered (.exception e)
  | null : Ordered .null
  | bool (b : Bool) : Ordered (.bool b)
  | number (d : Decimal) : Ordered (.number d)
  | text (t : Text) : Ordered (.text t)
  | list {items : List Datum} (h : ∀ x ∈ items, Ordered x) : Ordered (.list items)
  | object {entries : List (Datum × Datum)} (hkeys : ∀ e ∈ entries, ∃ k, e.1 = .text k)
      (hincreasing : Increasing entries) (hvalues : ∀ e ∈ entries, Ordered e.2) :
      Ordered (.object entries)

/-- There are no surrogates in texts, and numbers are within their limits. -/
inductive Storable : Datum → Prop
  | exception (e : Exception) : Storable (.exception e)
  | null : Storable .null
  | bool (b : Bool) : Storable (.bool b)
  | number {d : Decimal} (h : d.Bounded) : Storable (.number d)
  | text {t : Text} (h : t.isWellFormed) : Storable (.text t)
  | list {items : List Datum} (h : ∀ x ∈ items, Storable x) : Storable (.list items)
  | object {entries : List (Datum × Datum)} (hkeys : ∀ e ∈ entries, Storable e.1)
      (hvalues : ∀ e ∈ entries, Storable e.2) : Storable (.object entries)

variable {N N' : Decimal → Prop} {T T' : Text → Prop} {x y : Datum}

theorem MadeOf.mono (h : x.MadeOf N T) (hN : ∀ d, N d → N' d) (hT : ∀ t, T t → T' t) :
    x.MadeOf N' T' := by
  induction h with
  | null => exact .null
  | bool b => exact .bool b
  | number h => exact .number (hN _ h)
  | text h => exact .text (hT _ h)
  | list _ ih => exact .list ih
  | object hkeys _ ih =>
    refine .object (fun e he => ?_) ih
    obtain ⟨k, hk, hT'⟩ := hkeys e he
    exact ⟨k, hk, hT k hT'⟩

/-- What is made of such numbers and texts and can be held is made of those of them that can be held. -/
theorem MadeOf.storable (h : x.MadeOf N T) (hx : x.Storable) :
    x.MadeOf (fun d => N d ∧ d.Bounded) fun t => T t ∧ t.isWellFormed := by
  induction h with
  | null => exact .null
  | bool b => exact .bool b
  | number h =>
    cases hx with
    | number hbound => exact .number ⟨h, hbound⟩
  | text h =>
    cases hx with
    | text hwell => exact .text ⟨h, hwell⟩
  | list _ ih =>
    cases hx with
    | list hitems => exact .list fun x hx => ih x hx (hitems x hx)
  | object hkeys _ ih =>
    cases hx with
    | object hkeys' hvalues' =>
      refine .object (fun e he => ?_) fun e he => ih e he (hvalues' e he)
      obtain ⟨k, hk, hT⟩ := hkeys e he
      have hstorable := hkeys' e he
      rw [hk] at hstorable
      cases hstorable with
      | text hwell => exact ⟨k, hk, hT, hwell⟩

theorem Same.eq_text {t : Text} (h : Same (.text t) x) : x = .text t := by
  cases h
  rfl

/-- The numbers of a datum that is the same may be given differently. -/
theorem Same.madeOf (h : y.Same x) (hy : y.MadeOf N T) : x.MadeOf (fun _ => True) T := by
  induction h with
  | exception => cases hy
  | null => exact .null
  | bool b => exact .bool b
  | number => exact .number trivial
  | text =>
    cases hy with
    | text hT => exact .text hT
  | list hleft hright _ ih =>
    subst hleft hright
    cases hy with
    | list hitems =>
      have hrows := List.forall_mem_map.1 hitems
      exact .list (List.forall_mem_map.2 fun r hr => ih r hr (hrows r hr))
  | @object entries entries' rows hleft hright hsame _ _ ih =>
    cases hy with
    | object hkeys hvalues =>
      have hmem : ∀ r ∈ rows, r.1 ∈ entries := fun r hr => hleft.mem_iff.1 (List.mem_map_of_mem hr)
      have hrow : ∀ e ∈ entries', ∃ r ∈ rows, r.2 = e := fun e he =>
        List.mem_map.1 (hright.mem_iff.2 he)
      refine .object (fun e he => ?_) fun e he => ?_
      · obtain ⟨r, hr, rfl⟩ := hrow e he
        obtain ⟨k, hk, hT⟩ := hkeys _ (hmem r hr)
        exact ⟨k, (hk ▸ hsame r hr).eq_text, hT⟩
      · obtain ⟨r, hr, rfl⟩ := hrow e he
        exact ih r hr (hvalues _ (hmem r hr))

end Datum

end FilterShell
