import FilterShell.Proofs.Filter.Grouping

/-!
# What a derivation says about its filters

The filters of a derivation of `Grouped` are made out of its tokens, node by node (`Grouped.builtFrom`).  If
every keyword group ends with `end`, which `keywordsEnd` finds by counting, they also read as these tokens
(`Grouped.marks`); another closer is not to be seen in the filter.
-/

namespace FilterShell

variable {a b : List Token} {items : List Item} {f : Filter}

namespace Token

variable {t u : Token}

theorem isName_congr (h : t.mark = u.mark) (word : Text) : t.isName word = u.isName word := by
  obtain ⟨hk, ht⟩ := Prod.mk.inj h
  simp [isName, hk, ht]

theorem clauseWords?_congr (h : t.mark = u.mark) : t.clauseWords? = u.clauseWords? := by
  simp [clauseWords?, isName_congr h]

theorem closes_congr (h : t.mark = u.mark) : t.closes = u.closes := by
  simp [closes, isName_congr h, (Prod.mk.inj h).1]

theorem opens_congr (h : t.mark = u.mark) : t.opens = u.opens := by
  simp [opens, clauseWords?_congr h, (Prod.mk.inj h).1]

theorem regular_congr (h : t.mark = u.mark) : t.Regular ↔ u.Regular := by
  obtain ⟨hk, ht⟩ := Prod.mk.inj h
  simp only [Regular, hk, ht]

/-- Lists of tokens with the same marks are gone through side by side. -/
@[elab_as_elim]
theorem marks_induction {motive : ∀ a b : List Token, a.map mark = b.map mark → Prop}
    (nil : motive [] [] rfl)
    (cons : ∀ {t u : Token} {a b : List Token} (hu : t.mark = u.mark) (hb : a.map mark = b.map mark),
      motive a b hb → motive (t :: a) (u :: b) (congrArg₂ List.cons hu hb)) :
    ∀ (a b : List Token) (h : a.map mark = b.map mark), motive a b h
  | [], [], _ => nil
  | _ :: a, _ :: b, h => by
    obtain ⟨hu, hb⟩ := List.cons.inj h
    exact cons hu hb (marks_induction nil cons a b hb)

end Token

namespace Bracket

variable {p : Permissions} {Q : Token → Prop}

/-! ### Items without groups -/

theorem Finished.steps (h : Finished p items f) (hw : Operators.Within 0 items) :
    (items = [] ∧ f = .empty ∧ p.Passes .empty) ∨ Operators.Steps p items [.filter f] := by
  obtain h | ⟨-, done, hd, ho⟩ := h
  · exact .inl h
  · obtain ⟨hs, hw'⟩ := Operators.atoms_steps hd hw
    exact .inr (hs.trans (Operators.pass_steps ho hw'))

theorem Finished.allBuilt (h : Finished p items f)
    (hw : Operators.Within 0 items) (hb : ∀ x ∈ items, x.BuiltFrom p Q) : f.AllBuilt p Q := by
  obtain ⟨rfl, rfl, hp⟩ | hs := h.steps hw
  · exact Filter.allBuilt_empty hp
  · exact Operators.Steps.allBuilt hs hb (.filter f) List.mem_cons_self

theorem Finished.marks (h : Finished p items f)
    (hw : Operators.Within 0 items) (hb : ∀ x ∈ items, x.BuiltFrom p Token.Regular) :
    f.marks = items.flatMap Item.marks := by
  obtain ⟨rfl, rfl, -⟩ | hs := h.steps hw
  · simp [Filter.marks]
  · simpa [Item.marks] using Operators.Steps.marks hs hb

/-! ### Groups -/

theorem looseness_wrapped (k : Token.Kind) (body : Filter) : (wrapped k body).looseness = 0 := by
  unfold wrapped
  split <;> rfl

theorem looseness_keywordFilter (o : Token) (clauses : List (Text × Filter)) :
    (keywordFilter o clauses).looseness = 0 := by
  unfold keywordFilter
  split <;> rfl

/-- Whole groups have no operator at the top. -/
theorem Grouped.within {ends : Token → Prop} {ts : List Token}
    (h : Grouped p ends ts items) : Operators.Within 0 items := by
  induction h using Grouped.along with
  | nil => simp
  | flat _ _ ih => simpa using ih
  | bracket _ _ _ _ _ ih => simpa [looseness_wrapped] using ih
  | keyword _ _ _ _ _ _ ih => simpa [looseness_keywordFilter] using ih

theorem allBuilt_keywordFilter {o : Token} {clauses : List (Text × Filter)}
    (hp : p.Passes (keywordFilter o clauses))
    (hc : ∀ c ∈ clauses, (∃ t, Q t ∧ t.kind = .name ∧ t.text = some c.1) ∧ c.2.AllBuilt p Q) :
    (keywordFilter o clauses).AllBuilt p Q := by
  have hwords : ∀ c ∈ clauses, ∃ t, Q t ∧ t.kind = .name ∧ t.text = some c.1 := fun c h =>
    (hc c h).1
  have hbelow : ∀ n ∈ Filter.clauseNodes clauses, Built p Q n := by
    intro n hn
    obtain ⟨c, hcm, hn⟩ := Filter.mem_clauseNodes.1 hn
    exact (hc c hcm).2 n hn
  intro n hn
  unfold keywordFilter at hp hn
  split at hn
  · rename_i hif
    rw [if_pos hif] at hp
    rcases List.mem_cons.1 (by simpa [Filter.nodes] using hn) with rfl | hn
    · exact .conditional hwords hp
    · exact hbelow n hn
  · rename_i hif
    rw [if_neg hif] at hp
    rcases List.mem_cons.1 (by simpa [Filter.nodes] using hn) with rfl | hn
    · exact .attempt hwords hp
    · exact hbelow n hn

mutual

/-- The filters of a derivation are made out of its tokens. -/
theorem Grouped.builtFrom {ends : Token → Prop} {ts : List Token} {items : List Item} :
    Grouped p ends ts items → (∀ t ∈ ts, Q t) → ∀ x ∈ items, x.BuiltFrom p Q
  | .nil, _ => by simp
  | .flat _ hr, hq => by
    obtain ⟨ht, hq⟩ := List.forall_mem_cons.1 hq
    exact List.forall_mem_cons.2 ⟨ht, hr.builtFrom hq⟩
  | .bracket _ hi hb hp hr, hq => by
    simp only [List.forall_mem_cons, List.forall_mem_append] at hq
    refine List.forall_mem_cons.2 ⟨?_, hr.builtFrom hq.2.2.2⟩
    exact Filter.allBuilt_wrapped hp (hb.allBuilt hi.within (hi.builtFrom hq.2.1))
  | .keyword ho _ _ hi hp hr, hq => by
    simp only [List.forall_mem_cons, List.forall_mem_append] at hq
    refine List.forall_mem_cons.2 ⟨?_, hr.builtFrom hq.2.2.2⟩
    exact allBuilt_keywordFilter hp
      (hi.builtFrom hq.1 (Token.name_of_clauseWords ho).1 hq.2.1)

theorem Clauses.builtFrom {ends : Token → Prop} {words : List Text} {t : Token} {ts : List Token}
    {clauses : List (Text × Filter)} :
    Clauses p ends words t ts clauses → Q t → t.kind = .name → (∀ u ∈ ts, Q u) →
      ∀ c ∈ clauses, (∃ u, Q u ∧ u.kind = .name ∧ u.text = some c.1) ∧ c.2.AllBuilt p Q
  | .last ht hs _ hf, hqt, hk, hq => by
    refine List.forall_mem_singleton.2 ⟨⟨t, hqt, hk, ht⟩, ?_⟩
    exact hf.allBuilt hs.within (hs.builtFrom hq)
  | .cons ht hs _ hf hu hr, hqt, hk, hq => by
    simp only [List.forall_mem_cons, List.forall_mem_append] at hq
    refine List.forall_mem_cons.2 ⟨⟨⟨t, hqt, hk, ht⟩, ?_⟩, hr.builtFrom hq.2.1 hu.1 hq.2.2⟩
    exact hf.allBuilt hs.within (hs.builtFrom hq.1)

end

theorem marks_wrapped {o c : Token} {body : Filter} (hc : o.kind.closer? = some c.kind)
    (ho : o.Regular) (hc' : c.Regular) :
    (wrapped o.kind body).marks = o.mark :: body.marks ++ [c.mark] := by
  unfold Token.Kind.closer? at hc
  split at hc
  · rename_i hk
    simp_all [wrapped, Filter.marks, Token.mark, Token.Regular, ← Option.some.inj hc]
  · rename_i hk
    simp_all [wrapped, Filter.marks, Token.mark, Token.Regular, ← Option.some.inj hc]
  · rename_i hk
    simp_all [wrapped, Filter.marks, Token.mark, Token.Regular, ← Option.some.inj hc]
  · cases hc

theorem marks_keywordFilter (o : Token) (clauses : List (Text × Filter)) :
    (keywordFilter o clauses).marks = Filter.clauseMarks clauses ++ [(.name, some Token.endWord)] := by
  unfold keywordFilter
  split <;> simp [Filter.marks]

theorem mark_endOnly {c : Token} (h : endOnly c) : c.mark = (.name, some Token.endWord) := by
  simpa [endOnly, Token.isName, Token.mark] using h

mutual

/-- The filters of a derivation read as its tokens. -/
theorem Grouped.marks {ts : List Token} {items : List Item} :
    Grouped p endOnly ts items → (∀ t ∈ ts, t.Regular) →
      items.flatMap Item.marks = ts.map Token.mark
  | .nil, _ => rfl
  | .flat _ hr, hq => by
    simp [Item.marks, hr.marks (List.forall_mem_cons.1 hq).2]
  | .bracket hc hi hb hp hr, hq => by
    simp only [List.forall_mem_cons, List.forall_mem_append] at hq
    obtain ⟨ho, hq, hqc, hqr⟩ := hq
    have hbody := hb.marks hi.within (hi.builtFrom hq)
    rw [hi.marks hq] at hbody
    simp [Item.marks, marks_wrapped hc ho hqc, hbody, hr.marks hqr]
  | .keyword ho hc he hi hp hr, hq => by
    simp only [List.forall_mem_cons, List.forall_mem_append] at hq
    obtain ⟨hqo, hq, hqc, hqr⟩ := hq
    have hclauses := hi.marks (Token.name_of_clauseWords ho).1 hq
    simp [Item.marks, marks_keywordFilter, mark_endOnly he, hclauses, hr.marks hqr]

theorem Clauses.marks {words : List Text} {t : Token} {ts : List Token}
    {clauses : List (Text × Filter)} :
    Clauses p endOnly words t ts clauses → t.kind = .name → (∀ u ∈ ts, u.Regular) →
      Filter.clauseMarks clauses = t.mark :: ts.map Token.mark
  | .last ht hs _ hf, hk, hq => by
    have hbody := hf.marks hs.within (hs.builtFrom hq)
    rw [hs.marks hq] at hbody
    simp [Filter.clauseMarks, Token.mark, hk, ht, hbody]
  | .cons ht hs _ hf hu hr, hk, hq => by
    simp only [List.forall_mem_cons, List.forall_mem_append] at hq
    have hbody := hf.marks hs.within (hs.builtFrom hq.1)
    rw [hs.marks hq.1] at hbody
    simp [Filter.clauseMarks, Token.mark, hk, ht, hbody, hr.marks hu.1 hq.2.2]

end

/-! ### Keyword groups that end with `end` -/

/-- Every keyword group ends with `end`, if it ends at all. -/
def keywordsEnd : List Token → Bool
  | []     => true
  | t :: r => (t.clauseWords?.isNone || (closer? 0 r).all (·.isName Token.endWord)) && keywordsEnd r

theorem keywordsEnd_right (h : keywordsEnd (a ++ b)) : keywordsEnd b := by
  induction a with
  | nil => exact h
  | cons t a ih =>
    simp only [List.cons_append, keywordsEnd, Bool.and_eq_true] at h
    exact ih h.2

theorem keywordsEnd_left (h : keywordsEnd (a ++ b)) : keywordsEnd a := by
  induction a with
  | nil => rfl
  | cons t a ih =>
    simp only [List.cons_append, keywordsEnd, Bool.and_eq_true] at h ⊢
    refine ⟨?_, ih h.2⟩
    cases hc : closer? 0 a with
    | none => simp
    | some c => simpa [closer?_append hc b] using h.1

mutual

theorem Grouped.ended {ts : List Token} {items : List Item} :
    Grouped p anyCloser ts items → keywordsEnd ts → Grouped p endOnly ts items
  | .nil, _ => .nil
  | .flat ht hr, hk => .flat ht (hr.ended (keywordsEnd_right (a := [_]) hk))
  | .bracket hc hi hb hp hr, hk => by
    have hk := keywordsEnd_right (a := [_]) hk
    exact .bracket hc (hi.ended (keywordsEnd_left hk)) hb hp
      (hr.ended (keywordsEnd_right (a := [_]) (keywordsEnd_right hk)))
  | @Grouped.keyword _ _ o c words inside r items clauses ho hc _ hi hp hr, hk => by
    have hinside : Balanced inside :=
      hi.balanced fun _ hu => Token.isFlat_of_startsClause ho hu
    -- counting finds the closer of the derivation
    have hcloser : closer? 0 (inside ++ c :: r) = some c := by
      rw [closer?_balanced hinside]
      simp [closer?, hc]
    simp only [keywordsEnd, ho, hcloser, Bool.and_eq_true] at hk
    obtain ⟨hend, hk⟩ := hk
    have hend : c.isName Token.endWord = true := by simpa using hend
    exact .keyword ho hc hend (hi.ended (keywordsEnd_left hk)) hp
      (hr.ended (keywordsEnd_right (a := [_]) (keywordsEnd_right hk)))

theorem Clauses.ended {words : List Text} {t : Token} {ts : List Token}
    {clauses : List (Text × Filter)} :
    Clauses p anyCloser words t ts clauses → keywordsEnd ts →
      Clauses p endOnly words t ts clauses
  | .last ht hs hw hf, hk => .last ht (hs.ended hk) hw hf
  | .cons ht hs hw hf hu hr, hk =>
    .cons ht (hs.ended (keywordsEnd_left hk)) hw hf hu
      (hr.ended (keywordsEnd_right (a := [_]) (keywordsEnd_right hk)))

end

/-! ### Tokens with the same marks -/

theorem closer?_congr {d : Nat} (h : a.map Token.mark = b.map Token.mark) :
    (closer? d a).map Token.mark = (closer? d b).map Token.mark := by
  induction a, b, h using Token.marks_induction generalizing d with
  | nil => rfl
  | cons hu hb ih =>
    simp only [closer?, Token.closes_congr hu, Token.opens_congr hu]
    split
    · cases d with
      | zero => simp [hu]
      | succ d => exact ih
    · split <;> exact ih

theorem keywordsEnd_congr (h : a.map Token.mark = b.map Token.mark) :
    keywordsEnd a = keywordsEnd b := by
  induction a, b, h using Token.marks_induction with
  | nil => rfl
  | @cons t u a b hu hb ih =>
    simp only [keywordsEnd, Token.clauseWords?_congr hu, ih]
    have hc := closer?_congr (d := 0) hb
    cases hca : closer? 0 a <;> cases hcb : closer? 0 b <;> simp [hca, hcb] at hc ⊢
    simp [Token.isName_congr hc]

end Bracket

end FilterShell
