import FilterShell.Proofs.Filter.Brackets

/-!
# Places that are remembered

The reader remembers the places of the names in a group, to find its clauses, and forgets them at the
next `end`.  A keyword group that ends with a bracket instead takes the places of the groups behind it for
its own.

`placesHold` asks on the tokens that this does not happen.  It is inherited by what stands between two tokens
(`placesHold_within`), and depends on marks only (`placesHold_congr`).
-/

namespace FilterShell.Bracket

variable {a b : List Token} {d : Nat}

/-- The tokens behind the one that closes the group that is open at the start, `depth` groups further
in. -/
def behind : Nat → List Token → List Token
  | _, []         => []
  | depth, t :: r =>
    if t.closes then
      match depth with
      | 0         => r
      | depth + 1 => behind depth r
    else if t.opens then behind (depth + 1) r
    else behind depth r

/-- A name stands directly in one of the groups that follow at the same level, when `depth` groups are
open at the start. -/
def namesInside : Nat → List Token → Bool
  | _, []         => false
  | depth, t :: r =>
    if t.closes then
      match depth with
      | 0         => false
      | depth + 1 => namesInside depth r
    else if t.opens then namesInside (depth + 1) r
    else (depth = 1 && t.kind = .name) || namesInside depth r

/-- Behind a keyword group that does not end with `end`, no group at its level has a name directly
inside. -/
def placesHold : List Token → Bool
  | []     => true
  | t :: r => (t.clauseWords?.isNone || (closer? 0 r).all (·.isName Token.endWord) ||
      !namesInside 0 (behind 0 r)) && placesHold r

/-- A balanced part changes no depth. -/
theorem behind_balanced (hb : Balanced b) (d : Nat) (r : List Token) :
    behind d (b ++ r) = behind d r := by
  induction hb generalizing d r with
  | nil => rfl
  | @flat t b ht _ ih =>
    simp only [Token.isFlat, Bool.and_eq_true, Bool.not_eq_true'] at ht
    simp [behind, ht.1, ht.2, ih]
  | @group o c inside b ho hc _ _ ih ih' =>
    have ho' : behind d (o :: (inside ++ c :: (b ++ r))) =
        behind (d + 1) (inside ++ c :: (b ++ r)) := by
      simp [behind, ho, Token.not_closes_of_opens ho]
    simp only [List.cons_append, List.append_assoc]
    rw [ho', ih]
    simp [behind, hc, ih']

/-- Behind a closer that is found, more may follow. -/
theorem behind_append {c : Token} (h : closer? d a = some c)
    (r : List Token) : behind d (a ++ r) = behind d a ++ r := by
  fun_induction closer? d a with
  | case1 => cases h
  | case2 t a hc => simp [behind, hc]
  | case3 t a hc d ih => simpa [behind, hc] using ih h
  | case4 d t a hc ho ih => simpa [behind, hc, ho] using ih h
  | case5 d t a hc ho ih => simpa [behind, hc, ho] using ih h

theorem namesInside_append (h : namesInside d a) (r : List Token) : namesInside d (a ++ r) := by
  fun_induction namesInside d a with
  | case1 => cases h
  | case2 t a hc => cases h
  | case3 t a hc d ih => simpa [namesInside, hc] using ih h
  | case4 d t a hc ho ih => simpa [namesInside, hc, ho] using ih h
  | case5 d t a hc ho ih =>
    rcases Bool.or_eq_true _ _ ▸ h with h | h
    · simp_all [namesInside]
    · simp [namesInside, hc, ho, ih h]

theorem namesInside_flat {t : Token} (ht : t.isFlat) (r : List Token) :
    namesInside 0 (t :: r) = namesInside 0 r := by
  simp only [Token.isFlat, Bool.and_eq_true, Bool.not_eq_true'] at ht
  simp [namesInside, ht.1, ht.2]

theorem namesInside_opens {o : Token} (ho : o.opens) (d : Nat) (r : List Token) :
    namesInside d (o :: r) = namesInside (d + 1) r := by
  simp [namesInside, ho, Token.not_closes_of_opens ho]

/-- Names further in do not count. -/
theorem namesInside_deeper (hb : Balanced b) (d : Nat) (r : List Token) :
    namesInside (d + 2) (b ++ r) = namesInside (d + 2) r := by
  induction hb generalizing d r with
  | nil => rfl
  | @flat t b ht _ ih =>
    simp only [Token.isFlat, Bool.and_eq_true, Bool.not_eq_true'] at ht
    simp [namesInside, ht.1, ht.2, ih]
  | @group o c inside b ho hc _ _ ih ih' =>
    simp only [List.cons_append, List.append_assoc]
    rw [namesInside_opens ho, ih (d + 1)]
    simp [namesInside, hc, ih']

theorem namesInside_through (hb : Balanced b) {r : List Token}
    (h : namesInside 1 r) : namesInside 1 (b ++ r) := by
  induction hb with
  | nil => exact h
  | @flat t b ht _ ih =>
    simp only [Token.isFlat, Bool.and_eq_true, Bool.not_eq_true'] at ht
    simp [namesInside, ht.1, ht.2, ih]
  | @group o c inside b ho hc hi _ _ ih =>
    simp only [List.cons_append, List.append_assoc]
    rw [namesInside_opens ho, namesInside_deeper hi]
    simp [namesInside, hc, ih]

theorem namesInside_group {o c : Token} {inside r : List Token} (ho : o.opens) (hc : c.closes)
    (hb : Balanced inside) (h : namesInside 0 r) : namesInside 0 (o :: (inside ++ c :: r)) := by
  rw [namesInside_opens ho]
  refine namesInside_through hb ?_
  simpa [namesInside, hc] using h

/-! ### Keyword groups -/

theorem placesHold_right (h : placesHold (a ++ b)) : placesHold b := by
  induction a with
  | nil => exact h
  | cons t a ih =>
    simp only [List.cons_append, placesHold, Bool.and_eq_true] at h
    exact ih h.2

/-- What holds of a source holds of its beginning. -/
theorem placesHold_left (h : placesHold (a ++ b)) : placesHold a := by
  induction a with
  | nil => rfl
  | cons t a ih =>
    simp only [List.cons_append, placesHold, Bool.and_eq_true, Bool.or_eq_true] at h ⊢
    obtain ⟨ht, h⟩ := h
    refine ⟨?_, ih h⟩
    cases hc : closer? 0 a with
    | none => simp
    | some c =>
      rw [closer?_append hc, behind_append hc] at ht
      rcases ht with ht | ht
      · exact .inl ht
      · refine .inr ?_
        cases hn : namesInside 0 (behind 0 a) with
        | false => rfl
        | true => simp [namesInside_append hn] at ht

theorem placesHold_within (h : a <:+: b) (hb : placesHold b) : placesHold a := by
  obtain ⟨l, r, rfl⟩ := h
  exact placesHold_right (placesHold_left hb)

/-! ### Marks -/

theorem behind_congr (h : a.map Token.mark = b.map Token.mark) :
    (behind d a).map Token.mark = (behind d b).map Token.mark := by
  induction a, b, h using Token.marks_induction generalizing d with
  | nil => rfl
  | cons hu hb ih =>
    simp only [behind, Token.closes_congr hu, Token.opens_congr hu]
    split
    · cases d with
      | zero => exact hb
      | succ d => exact ih
    · split <;> exact ih

theorem namesInside_congr (h : a.map Token.mark = b.map Token.mark) :
    namesInside d a = namesInside d b := by
  induction a, b, h using Token.marks_induction generalizing d with
  | nil => rfl
  | cons hu _ ih =>
    simp only [namesInside, Token.closes_congr hu, Token.opens_congr hu, (Prod.mk.inj hu).1]
    split
    · cases d with
      | zero => rfl
      | succ d => exact ih
    · split
      · exact ih
      · rw [ih]

theorem placesHold_congr (h : a.map Token.mark = b.map Token.mark) :
    placesHold a = placesHold b := by
  induction a, b, h using Token.marks_induction with
  | nil => rfl
  | @cons t u a b hu hb ih =>
    simp only [placesHold, Token.clauseWords?_congr hu, ih, namesInside_congr (behind_congr hb)]
    have hc := closer?_congr (d := 0) hb
    cases hca : closer? 0 a <;> cases hcb : closer? 0 b <;> simp [hca, hcb] at hc ⊢
    simp [Token.isName_congr hc]

/-! ### Places of a group -/

variable {words : List Text} {stop : Nat} {r segment : List Token} {places : List Nat}
  {cs : List (Token × List Token)}

/-- A place that is noted is that of a name. -/
theorem Noted.namesInside (h : Noted words stop r places segment cs) (hplaces : places ≠ [])
    (rest : List Token) : namesInside 1 (r ++ rest) := by
  induction h with
  | nil => exact absurd rfl hplaces
  | start hf hu _ _ _ =>
    simp only [Token.isFlat, Bool.and_eq_true, Bool.not_eq_true'] at hf
    simp [Bracket.namesInside, hf.1, hf.2, hu.1]
  | name hf hk _ _ _ _ =>
    simp only [Token.isFlat, Bool.and_eq_true, Bool.not_eq_true'] at hf
    simp [Bracket.namesInside, hf.1, hf.2, hk]
  | flat hf _ _ ih =>
    simp only [Token.isFlat, Bool.and_eq_true, Bool.not_eq_true'] at hf
    simp [Bracket.namesInside, hf.1, hf.2, ih hplaces]
  | group ho hc hb _ ih =>
    simp only [List.cons_append, List.append_assoc]
    rw [namesInside_opens ho, namesInside_deeper hb]
    simp [Bracket.namesInside, hc, ih hplaces]

/-- The clauses of a group stand in it without gaps. -/
theorem Noted.segments_within (h : Noted words stop r places segment cs) :
    segment <:+: r ∧ ∀ c ∈ cs, c.2 <:+: r := by
  rw [h.tokens_eq]
  refine ⟨(List.prefix_append _ _).isInfix, fun c hc => ?_⟩
  obtain ⟨front, back, rfl⟩ := List.append_of_mem hc
  refine ⟨segment ++ (front.flatMap fun c => c.1 :: c.2) ++ [c.1],
    back.flatMap fun c => c.1 :: c.2, ?_⟩
  simp

end FilterShell.Bracket
