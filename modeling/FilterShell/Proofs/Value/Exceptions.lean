import FilterShell.Proofs.Value.Agreement
import FilterShell.Value.Datum

/-!
# Exceptions in values

A value is *exhausted* if the ends of all containers in it have been taken, and something occurs in it if it is
held at some depth (`Value.Occurs`).  Whether a value has a JSON text depends on whether an exception occurs in
it.  Exceptions say no, other values that hold nothing say yes, and a container that holds something cannot be
asked (`Value.answers_isPlain_iff`).
-/

namespace FilterShell

variable {v : Value}

open Reading

variable {s : Store}

namespace Value

/-- What has been taken of a container: the items of an array, the keys and values of an object. -/
def holdings (s : Store) : Value → List Value
  | .array id items  => items.take (s.get id).taken
  | .object id pairs => (Relations.tableOf pairs (s.get id).entries).flatMap fun p => [p.1, p.2]
  | _                => []

/-- The table of an object is made of its pairs. -/
def Placed (s : Store) : Value → Prop
  | .object id pairs => ∀ e ∈ (s.get id).entries, ∃ p, e.pick pairs = some p
  | _                => True

/-- The ends of all containers have been taken, at any depth. -/
inductive Exhausted (s : Store) : Value → Prop
  | intro {v : Value} (hended : ∀ id, v.id? = some id → (s.get id).ended = true) (hplaced : v.Placed s)
      (hheld : ∀ w ∈ v.holdings s, Exhausted s w) : Exhausted s v

/-- A value of some sort occurs in the value, as itself or at any depth. -/
inductive Occurs (s : Store) (P : Value → Bool) : Value → Prop
  | here {v : Value} (h : P v = true) : Occurs s P v
  | inside {v w : Value} (hw : w ∈ v.holdings s) (h : Occurs s P w) : Occurs s P v

/-- An exception occurs in the value. -/
abbrev HasException (s : Store) (v : Value) : Prop := v.Occurs s isException

theorem Exhausted.ended {id : Nat} (h : Exhausted s v) (hid : v.id? = some id) :
    (s.get id).ended = true := by
  obtain ⟨hended, -, -⟩ := h
  exact hended id hid

variable {P : Value → Bool}

theorem not_occurs (hv : P v = false) (h : ∀ w ∈ v.holdings s, ¬ w.Occurs s P) :
    ¬ v.Occurs s P := by
  rintro (hhere | ⟨hw, hinside⟩)
  · rw [hv] at hhere
    cases hhere
  · exact h _ hw hinside

/-- In a value that holds nothing, only the value itself occurs. -/
theorem occurs_iff (h : v.holdings s = []) : v.Occurs s P ↔ P v = true := by
  refine ⟨fun hoccurs => ?_, .here⟩
  by_contra hv
  refine not_occurs (Bool.eq_false_iff.2 hv) ?_ hoccurs
  rw [h]
  exact List.forall_mem_nil _

/-- What holds nothing answers for itself. -/
theorem answers_isPlain (hv : Exhausted s v) (h : v.holdings s = []) :
    Answers s v.isPlain (!v.isException) := by
  cases v with
  | exception | null | bool | number | string => rfl
  | array id items =>
    have hitem : Answers s (item? id items 0) none := by
      have hread := answers_item? (hv.ended rfl) items 0
      rwa [show items.take (s.get id).taken = [] from h] at hread
    exact hitem.bind rfl
  | object id pairs =>
    have htable : Relations.tableOf pairs (s.get id).entries = [] := by
      refine List.eq_nil_iff_forall_not_mem.2 fun p hp => ?_
      cases List.flatMap_eq_nil_iff.1 h p hp
    have hkeys := Relations.answers_mapKeys (R := (object id pairs).relations)
      (f := fun _ => (throw .containerCheck : Reading Unit)) (g := fun _ => ()) (hv.ended rfl) pairs
      (by rw [htable]; exact List.forall_mem_nil _)
    exact hkeys.bind rfl

theorem fails_isPlain (hv : Exhausted s v) (h : v.holdings s ≠ []) :
    Fails s v.isPlain .containerCheck s := by
  cases v with
  | exception | null | bool | number | string => exact absurd rfl h
  | array id items =>
    obtain ⟨w, r, hitems⟩ := List.exists_cons_of_ne_nil h
    have hread := answers_item? (hv.ended rfl) items 0
    rw [show items.take (s.get id).taken = w :: r from hitems] at hread
    exact Gives.bind_fails hread rfl
  | object id pairs =>
    have htaken : Answers s (Relations.taken id pairs)
        (Relations.tableOf pairs (s.get id).entries) := rfl
    cases htable : Relations.tableOf pairs (s.get id).entries with
    | nil => exact absurd (by rw [holdings, htable]; rfl) h
    | cons p r =>
      rw [htable] at htaken
      -- the first key is asked, and asking fails
      have hkeys : Fails s ((object id pairs).relations.mapKeys id pairs
          fun _ => (throw .containerCheck : Reading Unit)) .containerCheck s := by
        refine Gives.bind_fails htaken ?_
        rw [List.mapM_cons]
        rfl
      exact hkeys.bind

/-- **A value tells whether it has a JSON text** if it holds nothing, and then it says whether no exception
occurs in it.  A container that holds something does not say, whether an exception occurs in it or not. -/
theorem answers_isPlain_iff {v : Value} (hv : Exhausted s v) :
    (∀ b, Answers s v.isPlain b ↔ v.holdings s = [] ∧ (b = true ↔ ¬ v.HasException s)) ∧
      (v.holdings s ≠ [] → Fails s v.isPlain .containerCheck s) := by
  refine ⟨fun b => ?_, fails_isPlain hv⟩
  by_cases h : v.holdings s = []
  · have hanswer := answers_isPlain hv h
    have hb : (b = true ↔ ¬ v.HasException s) ↔ (!v.isException) = b := by
      rw [HasException, occurs_iff h]
      cases v.isException <;> cases b <;> decide
    rw [and_iff_right h, hb]
    exact ⟨fun hplain => hanswer.unique hplain, fun heq => heq ▸ hanswer⟩
  · refine iff_of_false (fun hplain => ?_) fun hplain => h hplain.1
    cases hplain.symm.trans (fails_isPlain hv h)

/-- An array of an object that is empty and an object with an exception as a key. -/
theorem answers_isPlain_nested :
    let empty : Value := .object 1 []
    let record : Value := .object 2 [(.failure "k", .null)]
    let list : Value := .array 3 [empty, record]
    let s : Store := { progress := [(1, { ended := true }),
      (2, { taken := 1, ended := true, entries := [⟨108, 0, 0⟩] }),
      (3, { taken := 2, ended := true })] }
    Exhausted s list ∧ list.HasException s ∧ Fails s list.isPlain .containerCheck s ∧
      Exhausted s empty ∧ Answers s empty.isPlain true := by
  intro empty record list s
  have hempty : Exhausted s empty := .intro (by rintro _ ⟨⟩; rfl) (List.forall_mem_nil _) (List.forall_mem_nil _)
  have hrecord : Exhausted s record := by
    refine .intro (by rintro _ ⟨⟩; rfl) ?_ ?_
    · rintro e (_ | ⟨_, ⟨⟩⟩)
      exact ⟨_, rfl⟩
    · rintro w (_ | ⟨_, _ | ⟨_, ⟨⟩⟩⟩)
      · exact .intro (by rintro _ ⟨⟩) trivial (List.forall_mem_nil _)
      · exact .intro (by rintro _ ⟨⟩) trivial (List.forall_mem_nil _)
  have hlist : Exhausted s list := by
    refine .intro (by rintro _ ⟨⟩; rfl) trivial ?_
    rintro w (_ | ⟨_, _ | ⟨_, ⟨⟩⟩⟩)
    exacts [hempty, hrecord]
  have hnone : ¬ empty.HasException s := by
    rw [HasException, occurs_iff rfl]
    decide
  have hexception : list.HasException s :=
    .inside (w := record) (.tail _ (.head _)) (.inside (w := .failure "k") (.head _) (.here rfl))
  exact ⟨hlist, hexception, (answers_isPlain_iff hlist).2 (List.cons_ne_nil _ _), hempty,
    ((answers_isPlain_iff hempty).1 true).2 ⟨rfl, iff_of_true rfl hnone⟩⟩

/-- No exception occurs in an array of a number, and it does not say so. -/
theorem singleton_not_plain :
    let list : Value := .array 1 [.ofNat 1]
    let s : Store := { progress := [(1, { taken := 1, ended := true })] }
    Exhausted s list ∧ ¬ list.HasException s ∧ ¬ Answers s list.isPlain true := by
  intro list s
  have hlist : Exhausted s list := by
    refine .intro (by rintro _ ⟨⟩; rfl) trivial ?_
    rintro w (_ | ⟨_, ⟨⟩⟩)
    exact .intro (by rintro _ ⟨⟩) trivial (List.forall_mem_nil _)
  have hfails : Fails s list.isPlain .containerCheck s := rfl
  refine ⟨hlist, not_occurs rfl ?_, fun h => ?_⟩
  · rintro w (_ | ⟨_, ⟨⟩⟩)
    exact not_occurs rfl (List.forall_mem_nil _)
  · cases h.symm.trans hfails

end Value

end FilterShell
