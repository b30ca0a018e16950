import FilterShell.Proofs.Filter.Reading

/-!
# Fewer permissions

Whether a filter is allowed decides whether reading goes on, and never how.  So a reader with permissions `p`
and one with permissions `q` that pass all that `p` passes go the same way until `p` refuses a filter:
`Restricts`.  This goes through each part of the reader, from operators to programs (`ofSource_restricted`).
-/

namespace FilterShell

/-- Both computations come to the same, or the first is refused by the permissions. -/
def Restricts (p : Permissions) {α : Type} (x y : Except ParseError α) : Prop :=
  x = y ∨ ∃ f e, p.check f = .error e ∧ x = .error e

namespace Restricts

variable {p q : Permissions} {α β : Type}

theorem refl (x : Except ParseError α) : Restricts p x x := .inl rfl

/-- Both computations go on from the same result. -/
theorem andThen {x y : Except ParseError α} {next next' : α → Except ParseError β}
    (h : Restricts p x y) (hnext : ∀ a, Restricts p (next a) (next' a)) :
    Restricts p (x >>= next) (y >>= next') := by
  obtain rfl | ⟨f, e, hcheck, rfl⟩ := h
  · cases x with
    | error e => exact .refl _
    | ok a => exact hnext a
  · exact .inr ⟨f, e, hcheck, rfl⟩

/-- The only step at which the two may part. -/
theorem check (hpq : ∀ f, p.Passes f → q.Passes f) (f : Filter) :
    Restricts p (p.check f) (q.check f) := by
  cases h : p.check f with
  | error e => exact .inr ⟨f, e, h, rfl⟩
  | ok g =>
    obtain ⟨rfl, hp⟩ := Permissions.check_eq_ok.1 h
    exact .inl (hpq g hp).symm

/-- What the first computation gives, the second gives. -/
theorem ok {x y : Except ParseError α} (h : Restricts p x y) {a : α} (hx : x = .ok a) : y = .ok a := by
  obtain rfl | ⟨f, e, -, rfl⟩ := h
  · exact hx
  · cases hx

end Restricts

variable {p q : Permissions}

/-! ### Operators -/

namespace Operators

variable (hpq : ∀ f, p.Passes f → q.Passes f)

include hpq

theorem atoms_restricts (items : List Item) : Restricts p (atoms p items) (atoms q items) := by
  induction items with
  | nil => exact .refl _
  | cons x r ih =>
    cases x with
    | token t =>
      refine ih.andThen fun done => ?_
      split
      · exact (Restricts.refl _).andThen fun f => (Restricts.check hpq f).andThen fun _ => .refl _
      · exact .refl _
    | filter f => exact ih.andThen fun _ => .refl _
    | value => exact ih.andThen fun _ => .refl _

theorem unary_restricts (items : List Item) : Restricts p (unary p items) (unary q items) := by
  induction items with
  | nil => exact .refl _
  | cons x r ih =>
    cases x with
    | token t =>
      refine ih.andThen fun done => ?_
      split
      · exact .refl _
      · split
        · exact (Restricts.check hpq _).andThen fun _ => .refl _
        · exact .refl _
        · exact .refl _
    | filter f => exact ih.andThen fun _ => .refl _
    | value => exact ih.andThen fun _ => .refl _

theorem applied_restricts (fs : List Filter) : Restricts p (applied p fs) (applied q fs) := by
  rcases fs with _ | ⟨f, _ | ⟨g, r⟩⟩
  · exact .refl _
  · exact .refl _
  · exact (Restricts.check hpq _).andThen fun _ => .refl _

theorem rows_restricts (row : List Filter) (items : List Item) :
    Restricts p (rows p row items) (rows q row items) := by
  induction items generalizing row with
  | nil => exact applied_restricts hpq row
  | cons x r ih =>
    cases x with
    | token t =>
      exact (ih []).andThen fun _ => (applied_restricts hpq row).andThen fun _ => .refl _
    | filter f => exact ih (row ++ [f])
    | value =>
      exact (ih []).andThen fun _ => (applied_restricts hpq row).andThen fun _ => .refl _

theorem operand_restricts (f : Option Filter) : Restricts p (operand p f) (operand q f) := by
  cases f with
  | none => exact .check hpq _
  | some f => exact .refl _

/-- A sweep asks about each operator it applies. -/
theorem sweep_restricts (node : Token.Kind → Option (Filter → Filter → Filter))
    (done items : List Item) : Restricts p (sweep p node done items) (sweep q node done items) := by
  fun_induction sweep p node done items with
  | case1 done => exact .refl _
  | case2 done r f ih => rwa [sweep]
  | case3 done r ih => rwa [sweep]
  | case4 done r t hnode ih =>
    rw [sweep]
    simpa only [hnode] using ih
  | case5 done t make hmake behind rest hbehind ahead r ih =>
    rw [sweep]
    simp only [hmake, hbehind]
    exact (operand_restricts hpq behind).andThen ih
  | case6 done t make hmake behind rest hbehind r hr ih =>
    rw [sweep]
    simp only [hmake, hbehind]
    -- there is no filter ahead, for either reader
    have hnext := (operand_restricts hpq none).andThen fun ahead =>
      (operand_restricts hpq behind).andThen fun f => ih ahead f
    cases r with
    | nil => exact hnext
    | cons x r =>
      cases x with
      | token => exact hnext
      | filter f => exact absurd rfl (hr f r)
      | value => exact hnext

theorem leftward_restricts (kind : Token.Kind) (op : Operator) (items : List Item) :
    Restricts p (leftward p kind op items) (leftward q kind op items) :=
  sweep_restricts hpq _ _ _

theorem rightward_restricts (kind : Token.Kind) (op : Operator) (items : List Item) :
    Restricts p (rightward p kind op items) (rightward q kind op items) :=
  (sweep_restricts hpq _ _ _).andThen fun _ => .refl _

theorem pass_restricts (items : List Item) : Restricts p (pass p items) (pass q items) :=
  (unary_restricts hpq items).andThen fun items =>
  (leftward_restricts hpq _ _ items).andThen fun items =>
  (rows_restricts hpq [] items).andThen fun items =>
  (leftward_restricts hpq _ _ items).andThen fun items =>
  (leftward_restricts hpq _ _ items).andThen fun items =>
  (leftward_restricts hpq _ _ items).andThen fun items =>
  (leftward_restricts hpq _ _ items).andThen fun items =>
  (leftward_restricts hpq _ _ items).andThen fun items =>
  (rightward_restricts hpq _ _ items).andThen fun items => leftward_restricts hpq _ _ items

end Operators

/-! ### Groups -/

namespace Bracket

variable {n : Nat} {read read' : (items : List Item) → items.length < n → Except ParseError Filter}
  (hread : ∀ items h, Restricts p (read items h) (read' items h))

include hread

theorem readClauses_restricts (cs : List (Clause n)) :
    Restricts p (readClauses read cs) (readClauses read' cs) := by
  induction cs with
  | nil => exact .refl _
  | cons c cs ih => exact (hread c.items c.short).andThen fun _ => ih.andThen fun _ => .refl _

theorem group_restricts (i stop : Nat) (opener : Token) (after : List Item) (h : after.length < n)
    (names : List Nat) :
    Restricts p (group read i stop opener after h names) (group read' i stop opener after h names) := by
  unfold group
  split
  · exact (Restricts.refl _).andThen fun starts =>
      (readClauses_restricts hread _).andThen fun _ => .refl _
  · split
    · split
      · exact (hread _ _).andThen fun _ => .refl _
      · exact .refl _
    · exact .refl _

/-- The places that are remembered are the same for both readers, so they find the same groups. -/
theorem pass_restricts (hpq : ∀ f, p.Passes f → q.Passes f) {before : List Token} {after : List Item}
    (h : before.length + after.length ≤ n) (depth stop : Nat) (names : List Nat) :
    Restricts p (pass p read before after h depth stop names)
      (pass q read' before after h depth stop names) := by
  induction before generalizing after depth stop names with
  | nil => exact .refl _
  | cons t before ih =>
    rw [pass.eq_def, pass.eq_def]
    dsimp only
    split
    · exact ih _ _ _ _
    · split
      · split
        · exact .refl _
        · exact (group_restricts hread _ _ _ _ _ _).andThen fun _ =>
            (Restricts.check hpq _).andThen fun _ => ih _ _ _ _
        · exact ih _ _ _ _
      · split <;> exact ih _ _ _ _

end Bracket

/-! ### Programs -/

namespace Filter

/-- **The permissions decide only whether a program is read.** -/
theorem ofItems_restricts (hpq : ∀ f, p.Passes f → q.Passes f) (lines : Bool) (items : List Item) :
    Restricts p (ofItems p lines items) (ofItems q lines items) := by
  -- the groups inside have fewer items
  induction hn : items.length using Nat.strongRecOn generalizing items with
  | ind n ih =>
    subst hn
    rw [ofItems, ofItems]
    split
    · exact .refl _
    split
    · exact .refl _
    rename_i tokens htokens
    split
    · exact .refl _
    · exact .check hpq _
    · rename_i t ts hts
      have hle : (t :: ts).length ≤ items.length := by
        have := length_mergeTrailing_le hts
        have := length_legalTokens htokens
        have := List.length_filter_le (!·.isComment) items
        omega
      refine (Bracket.pass_restricts (fun inner h => ?_) hpq _ _ _ _).andThen fun grouped => ?_
      · exact ih inner.length (Nat.lt_of_lt_of_le h hle) inner rfl
      · exact (Operators.atoms_restricts hpq grouped).andThen fun done =>
          (Operators.pass_restricts hpq done).andThen fun _ => .refl _

theorem everything_passes (f : Filter) : Permissions.everything.Passes f := rfl

/-- **Permissions only ever reject.**  A program that is read with some permissions is read as the same
filter where everything is allowed, and none is read that cannot be read there.  Where the two readers
do not come to the same, the permissions have refused a filter. -/
theorem ofSource_restricted (p : Permissions) (lines : Bool) (source : Text) :
    (∀ f, ofSource p lines source = .ok f → ofSource .everything lines source = .ok f) ∧
    (∀ e, ofSource .everything lines source = .error e → ∀ f, ofSource p lines source ≠ .ok f) ∧
    (ofSource p lines source = ofSource .everything lines source ∨
      ∃ f e, p.check f = .error e ∧ ofSource p lines source = .error e) := by
  have hrestricts : Restricts p (ofSource p lines source) (ofSource .everything lines source) := by
    unfold ofSource
    dsimp only
    split
    · exact .refl _
    · exact ofItems_restricts (fun f _ => everything_passes f) lines _
  refine ⟨fun f => hrestricts.ok, fun e he f hf => ?_, hrestricts⟩
  cases (hrestricts.ok hf).symm.trans he

/-- The theorem at a program with a sum inside of groups, where only short numbers are allowed, and at one
that lacks a bracket. -/
theorem ofSource_restricted_short :
    let p : Permissions := .rules [(.number, .testText fun t => t.length < 3)] (some (.fixed true))
    (∃ f, ofSource p false "[if a then (1 + 22) end]" = .ok f ∧
      ofSource .everything false "[if a then (1 + 22) end]" = .ok f) ∧
    ∃ e, ofSource .everything false "[if a then (1 + 22) end" = .error e ∧
      ∀ f, ofSource p false "[if a then (1 + 22) end" ≠ .ok f := by
  intro p
  have hread : (ofSource p false "[if a then (1 + 22) end]").isOk := by decide +kernel
  have hfails : (ofSource .everything false "[if a then (1 + 22) end").isOk = false := by
    decide +kernel
  obtain ⟨f, hf⟩ := exists_of_isOk hread
  refine ⟨⟨f, hf, (ofSource_restricted p false _).1 f hf⟩, ?_⟩
  cases he : ofSource .everything false "[if a then (1 + 22) end" with
  | ok g => simp [he, Except.isOk, Except.toBool] at hfails
  | error e => exact ⟨e, rfl, (ofSource_restricted p false _).2.1 e he⟩

end Filter

end FilterShell
