import FilterShell.Proofs.Filter.Reading

/-!
# Brackets that match

`Matched fits` are the words of openers and closers that are properly nested, where each of the pairs fits.

A program is meant to be matched by `closedBy`: each bracket has the closer of its kind, and `if` and
`try` have `end`.  The reader sees to `endedBy`: a keyword group may end with any closer.  The two come to the
same exactly if there is an `end` for each keyword (`matched_closedBy_iff`).
-/

namespace FilterShell

variable {a b w : List Token} {c o t : Token}

namespace Token

/-- The token is `if` or `try`. -/
def isKeyword (t : Token) : Bool := t.clauseWords?.isSome

/-- The token is `end`. -/
def isEnd (t : Token) : Bool := t.isName endWord

/-- How a group is to be closed: a bracket by the one of its kind, a keyword by `end`. -/
def closedBy (o c : Token) : Prop :=
  o.kind.closer? = some c.kind ∨ (o.isKeyword ∧ c.isEnd)

/-- How the reader lets a group be closed: a bracket by the one of its kind, a keyword by anything. -/
def endedBy (o c : Token) : Prop :=
  o.kind.closer? = some c.kind ∨ (o.isKeyword ∧ c.closes)

theorem opens_of_isKeyword (h : t.isKeyword) : t.opens := by
  obtain ⟨words, hw⟩ := Option.isSome_iff_exists.1 h
  exact opens_of_clauseWords hw

theorem not_isKeyword_of_closes (h : t.closes) : t.isKeyword = false := by
  cases hk : t.isKeyword with
  | false => rfl
  | true =>
    rw [not_closes_of_opens (opens_of_isKeyword hk)] at h
    cases h

theorem not_isEnd_of_opens (h : t.opens) : t.isEnd = false := by
  cases hn : t.isEnd with
  | false => rfl
  | true =>
    have hc := closes_of_isName_end hn
    rw [not_closes_of_opens h] at hc
    cases hc

/-- A bracket is no keyword, and what closes it is not `end`. -/
theorem not_name_of_closer (h : o.kind.closer? = some c.kind) :
    o.isKeyword = false ∧ c.isEnd = false := by
  have ho : o.kind ≠ .name := by
    intro hk
    rw [hk] at h
    cases h
  have hc : c.kind ≠ .name := by
    intro hk
    rw [hk] at h
    unfold Kind.closer? at h
    split at h <;> cases h
  simp [isKeyword, clauseWords?, isEnd, isName, ho, hc]

/-- Both kinds of closing make a group. -/
theorem endedBy.group {o c : Token} (h : o.endedBy c) : o.opens ∧ c.closes := by
  rcases h with h | ⟨ho, hc⟩
  · exact ⟨opens_of_closer h, Bracket.closes_of_closer h⟩
  · exact ⟨opens_of_isKeyword ho, hc⟩

theorem closedBy.endedBy (h : o.closedBy c) : o.endedBy c := by
  rcases h with h | ⟨ho, hc⟩
  · exact .inl h
  · exact .inr ⟨ho, closes_of_isName_end hc⟩

theorem endedBy_congr {o' c' : Token} (ho : o.mark = o'.mark) (hc : c.mark = c'.mark)
    (h : o.endedBy c) : o'.endedBy c' := by
  simpa [endedBy, isKeyword, clauseWords?_congr ho, closes_congr hc, (Prod.mk.inj ho).1,
    (Prod.mk.inj hc).1] using h

end Token

namespace Bracket

/-! ### Words of brackets -/

/-- The tokens that start or end a group. -/
def word (ts : List Token) : List Token := ts.filter fun t => !t.isFlat

@[simp] theorem word_append (a b : List Token) : word (a ++ b) = word a ++ word b :=
  List.filter_append ..

theorem word_flat (ht : t.isFlat) (r : List Token) : word (t :: r) = word r := by
  simp [word, ht]

theorem word_opens (ho : o.opens) (r : List Token) : word (o :: r) = o :: word r := by
  simp [word, Token.isFlat, ho]

theorem word_closes (hc : c.closes) (r : List Token) : word (c :: r) = c :: word r := by
  simp [word, Token.isFlat, hc]

/-- Every opener has its closer, properly nested, and the two fit. -/
inductive Matched (fits : Token → Token → Prop) : List Token → Prop
  | nil : Matched fits []
  | group {o c : Token} {inside r : List Token} (h : fits o c) (hi : Matched fits inside)
      (hr : Matched fits r) : Matched fits (o :: (inside ++ c :: r))

variable {fits : Token → Token → Prop}

theorem Matched.append (ha : Matched fits a) (hb : Matched fits b) : Matched fits (a ++ b) := by
  induction ha with
  | nil => exact hb
  | group h hi _ _ ih => simpa using Matched.group h hi ih

/-- Only the marks of tokens count. -/
theorem Matched.congr
    (hfits : ∀ {o o' c c' : Token}, o.mark = o'.mark → c.mark = c'.mark → fits o c → fits o' c')
    (h : a.map Token.mark = b.map Token.mark) (ha : Matched fits a) : Matched fits b := by
  induction ha generalizing b with
  | nil =>
    obtain rfl : b = [] := by simpa using h.symm
    exact .nil
  | group hf _ _ ihi ihr =>
    simp only [List.map_cons, List.map_append] at h
    obtain ⟨o, b, rfl, ho, h⟩ := List.map_eq_cons_iff.1 h.symm
    obtain ⟨inside, b, rfl, hi, h⟩ := List.map_eq_append_iff.1 h
    obtain ⟨c, r, rfl, hc, hr⟩ := List.map_eq_cons_iff.1 h
    exact .group (hfits ho.symm hc.symm hf) (ihi hi.symm) (ihr hr.symm)

theorem marks_word (h : a.map Token.mark = b.map Token.mark) :
    (word a).map Token.mark = (word b).map Token.mark := by
  induction a, b, h using Token.marks_induction with
  | nil => rfl
  | @cons t u a b hu _ ih =>
    have hflat : t.isFlat = u.isFlat := by
      simp [Token.isFlat, Token.opens_congr hu, Token.closes_congr hu]
    cases hf : u.isFlat with
    | true => rwa [word_flat (hflat.trans hf), word_flat hf]
    | false =>
      simp only [word, List.filter_cons, hflat, hf, Bool.not_false, if_true, List.map_cons, hu]
      exact congrArg _ ih

/-! ### Groups that are read -/

variable {p : Permissions}

mutual

/-- Groups are closed as the reader lets them be. -/
theorem Grouped.matched {ts : List Token} {items : List Item} :
    Grouped p anyCloser ts items → Matched Token.endedBy (word ts)
  | .nil => .nil
  | .flat ht hr => by
    rw [word_flat ht]
    exact hr.matched
  | .bracket hc hi _ _ hr => by
    rw [word_opens (Token.opens_of_closer hc), word_append, word_closes (closes_of_closer hc)]
    exact .group (.inl hc) hi.matched hr.matched
  | .keyword ho hc _ hi _ hr => by
    rw [word_opens (Token.opens_of_clauseWords ho), word_append, word_closes hc]
    have hk : Token.isKeyword _ = true := Option.isSome_of_eq_some ho
    exact .group (.inr ⟨hk, hc⟩) (hi.matched fun _ hu => Token.isFlat_of_startsClause ho hu)
      hr.matched

theorem Clauses.matched {words : List Text} {t : Token} {ts : List Token}
    {clauses : List (Text × Filter)} :
    Clauses p anyCloser words t ts clauses → (∀ u : Token, u.StartsClause words → u.isFlat) →
      Matched Token.endedBy (word ts)
  | .last _ hs _ _, _ => hs.matched
  | .cons _ hs _ _ hu hr, hflat => by
    rw [word_append, word_flat (hflat _ hu)]
    exact hs.matched.append (hr.matched hflat)

end

/-! ### Counting keywords and `end` -/

/-- How many keywords and how many `end` a group adds. -/
theorem count_group (h : o.endedBy c) (inside r : List Token) :
    (o :: (inside ++ c :: r)).countP Token.isKeyword =
      inside.countP Token.isKeyword + r.countP Token.isKeyword + (if o.isKeyword then 1 else 0) ∧
    (o :: (inside ++ c :: r)).countP Token.isEnd =
      inside.countP Token.isEnd + r.countP Token.isEnd + (if c.isEnd then 1 else 0) := by
  obtain ⟨ho, hc⟩ := h.group
  simp only [List.countP_cons, List.countP_append, Token.not_isKeyword_of_closes hc,
    Token.not_isEnd_of_opens ho, Bool.false_eq_true, if_false]
  omega

/-- Each `end` closes a keyword. -/
theorem count_end_le (h : Matched Token.endedBy w) :
    w.countP Token.isEnd ≤ w.countP Token.isKeyword := by
  induction h with
  | nil => exact Nat.le_refl 0
  | @group o c inside r h _ _ ihi ihr =>
    obtain ⟨hk, he⟩ := count_group h inside r
    rw [hk, he]
    rcases h with h | ⟨ho, -⟩
    · obtain ⟨-, hc⟩ := Token.not_name_of_closer h
      simp only [hc, Bool.false_eq_true, if_false]
      omega
    · simp only [ho, if_true]
      split <;> omega

theorem Matched.count_eq (h : Matched Token.closedBy w) :
    w.countP Token.isEnd = w.countP Token.isKeyword := by
  induction h with
  | nil => rfl
  | @group o c inside r hf _ _ ihi ihr =>
    obtain ⟨hk, he⟩ := count_group hf.endedBy inside r
    rw [hk, he, ihi, ihr]
    rcases hf with hf | ⟨ho, hc⟩
    · obtain ⟨ho, hc⟩ := Token.not_name_of_closer hf
      rw [ho, hc]
    · rw [ho, hc]

/-- **An `end` for each keyword.**  A word that the reader takes is closed as it should be exactly if it
has as many `end` as keywords. -/
theorem matched_closedBy_iff (h : Matched Token.endedBy w) :
    Matched Token.closedBy w ↔ w.countP Token.isEnd = w.countP Token.isKeyword := by
  constructor
  · exact Matched.count_eq
  · intro hcount
    induction h with
    | nil => exact .nil
    | @group o c inside r h hi hr ihi ihr =>
      obtain ⟨hk, he⟩ := count_group h inside r
      rw [hk, he] at hcount
      -- inside and behind there are no more `end` than keywords, so one that is missing is missed
      have hlei := count_end_le hi
      have hler := count_end_le hr
      rcases h with h | ⟨ho, hc⟩
      · obtain ⟨hok, hce⟩ := Token.not_name_of_closer h
        simp only [hok, hce, Bool.false_eq_true, if_false] at hcount
        exact .group (.inl h) (ihi (by omega)) (ihr (by omega))
      · simp only [ho, if_true] at hcount
        cases hce : c.isEnd with
        | true =>
          simp only [hce, if_true] at hcount
          exact .group (.inr ⟨ho, hce⟩) (ihi (by omega)) (ihr (by omega))
        | false =>
          simp only [hce, Bool.false_eq_true, if_false] at hcount
          omega

end Bracket

/-! ### Programs that are read -/

namespace Filter

open FilterShell.Bracket

/-- **Brackets are matched, and keywords are ended.**  In a program that is read, every opener has its
closer, properly nested at any depth; a bracket has the one of its kind, while `if` and `try` have any.
So the brackets match exactly if there are as many `end` as `if` and `try`. -/
theorem ofSource_matched (p : Permissions) (lines : Bool) (source : Text) (f : Filter)
    (hread : ofSource p lines source = .ok f) :
    let brackets := word (Token.significant source)
    Matched Token.endedBy brackets ∧
      (Matched Token.closedBy brackets ↔
        brackets.countP Token.isEnd = brackets.countP Token.isKeyword) := by
  intro brackets
  obtain ⟨ts, items, hmarks, -, hg, -⟩ := ofSource_sound hread
  have hended : Matched Token.endedBy brackets :=
    hg.matched.congr Token.endedBy_congr (marks_word hmarks)
  exact ⟨hended, matched_closedBy_iff hended⟩

/-- The theorem at brackets of all kinds inside of each other, each closed as it should be. -/
theorem ofSource_matched_nested :
    ∃ f, ofSource .everything false "[if (a) then {b} else try c end end]" = .ok f ∧
      Matched Token.closedBy (word (Token.significant "[if (a) then {b} else try c end end]")) := by
  have hok : (ofSource .everything false "[if (a) then {b} else try c end end]").isOk := by
    decide +kernel
  obtain ⟨f, hread⟩ := exists_of_isOk hok
  exact ⟨f, hread, (ofSource_matched _ _ _ f hread).2.2 (by decide +kernel)⟩

/-- A parenthesis ends a keyword group. -/
theorem keyword_closed_by_paren :
    (ofSource .everything false "if true then 1 )").isOk ∧
      ¬ Matched Token.closedBy (word (Token.significant "if true then 1 )")) := by
  refine ⟨by decide +kernel, fun h => ?_⟩
  exact absurd h.count_eq (by decide +kernel)

end Filter

end FilterShell
