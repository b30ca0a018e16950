import FilterShell.Proofs.Filter.Origin

/-!
# Groups of tokens

How the tokens of a program fall into groups, said without places and counts.  In a `Balanced` list every
opener has its closer, of whatever kind.  `Grouped p ends` relates tokens to the items that are left when the
outermost groups have become filters; `ends` says which closers may end a keyword group, since the reader takes
any, while programs are written with `end`.

Two questions are answered by counting: which token closes the open group (`closer?`), and which tokens stand
outside of all groups (`tops`).
-/

namespace FilterShell

variable {a b : List Token} {c o t : Token} {words : List Text}

namespace Token

/-- The token neither starts nor ends a group. -/
def isFlat (t : Token) : Bool := !t.opens && !t.closes

theorem closes_of_isName_end (h : t.isName endWord) : t.closes := by
  simp [closes, h]

theorem not_closes_of_opens (h : t.opens) : t.closes = false := by
  have hne : endWord ≠ Text.ofString "if" ∧ endWord ≠ Text.ofString "try" := by decide
  cases hk : t.kind <;> simp_all [opens, closes, clauseWords?, isName, Kind.closer?]
  -- of the names, only `if` and `try` open a group
  rintro ht
  simp [ht, hne.1, hne.2] at h

/-- A keyword that opens a group is a name. -/
theorem name_of_clauseWords (h : t.clauseWords? = some words) :
    t.kind = .name ∧ ∃ w, t.text = some w := by
  unfold clauseWords? at h
  split at h
  · simp_all [isName]
  · split at h <;> simp_all [isName]

theorem opens_of_clauseWords (h : t.clauseWords? = some words) : t.opens := by
  simp [opens, h]

theorem opens_of_closer {k : Kind} (h : t.kind.closer? = some k) : t.opens := by
  simp [opens, h]

/-- The token is a name that starts a new clause. -/
def StartsClause (words : List Text) (t : Token) : Prop :=
  t.kind = .name ∧ ∃ w ∈ words, t.text = some w

theorem isFlat_of_startsClause
    (hw : o.clauseWords? = some words) (h : t.StartsClause words) : t.isFlat := by
  obtain ⟨hk, w, hw', ht⟩ := h
  have hwords : ∀ w ∈ words, w ≠ endWord ∧ w ≠ Text.ofString "if" ∧ w ≠ Text.ofString "try" := by
    unfold clauseWords? at hw
    split at hw
    · cases hw
      decide
    · split at hw
      · cases hw
        decide
      · cases hw
  obtain ⟨h₁, h₂, h₃⟩ := hwords w hw'
  simp [isFlat, opens, closes, clauseWords?, isName, Kind.closer?, hk, ht, h₁, h₂, h₃]

end Token

namespace Bracket

/-! ### Balanced tokens -/

/-- Every opener has its closer behind it, and every closer its opener. -/
inductive Balanced : List Token → Prop
  | nil : Balanced []
  | flat {t : Token} {r : List Token} (ht : t.isFlat) : Balanced r → Balanced (t :: r)
  | group {o c : Token} {inside r : List Token} (ho : o.opens) (hc : c.closes) :
      Balanced inside → Balanced r → Balanced (o :: (inside ++ c :: r))

theorem Balanced.append (ha : Balanced a) (hb : Balanced b) : Balanced (a ++ b) := by
  induction ha with
  | nil => exact hb
  | flat ht _ ih => exact .flat ht ih
  | group ho hc hi _ _ ih => simpa using Balanced.group ho hc hi ih

/-- The token that closes the group that is open at the start, `depth` groups further in. -/
def closer? : Nat → List Token → Option Token
  | _, []         => none
  | depth, t :: r =>
    if t.closes then
      match depth with
      | 0         => some t
      | depth + 1 => closer? depth r
    else if t.opens then closer? (depth + 1) r
    else closer? depth r

theorem closer?_flat (ht : t.isFlat) (d : Nat) (r : List Token) :
    closer? d (t :: r) = closer? d r := by
  simp only [Token.isFlat, Bool.and_eq_true, Bool.not_eq_true'] at ht
  simp [closer?, ht.1, ht.2]

theorem closer?_opens (ho : o.opens) (d : Nat) (r : List Token) :
    closer? d (o :: r) = closer? (d + 1) r := by
  simp [closer?, ho, Token.not_closes_of_opens ho]

theorem closer?_balanced (hb : Balanced b) (d : Nat) (r : List Token) :
    closer? d (b ++ r) = closer? d r := by
  induction hb generalizing d r with
  | nil => rfl
  | flat ht _ ih => rw [List.cons_append, closer?_flat ht, ih]
  | group ho hc _ _ ih ih' =>
    rw [List.cons_append, closer?_opens ho, List.append_assoc, ih, List.cons_append]
    simp [closer?, hc, ih']

/-- A closer with nothing but whole groups before it is one too many. -/
theorem Balanced.not_closes {r : List Token} (hb : Balanced b) (hc : c.closes) :
    ¬ Balanced (b ++ c :: r) := by
  intro h
  have h₁ : closer? 0 (b ++ c :: r) = none := by
    simpa [closer?] using closer?_balanced h 0 []
  rw [closer?_balanced hb] at h₁
  simp [closer?, hc] at h₁

/-- What closes a group is found without looking behind it. -/
theorem closer?_append {d : Nat} (h : closer? d a = some c)
    (r : List Token) : closer? d (a ++ r) = some c := by
  fun_induction closer? d a with
  | case1 => cases h
  | case2 t a hc => simpa [closer?, hc] using h
  | case3 t a hc d ih => simpa [closer?, hc] using ih h
  | case4 d t a hc ho ih => simpa [closer?, hc, ho] using ih h
  | case5 d t a hc ho ih => simpa [closer?, hc, ho] using ih h

/-- The tokens that stand outside of all groups, when `depth` groups are open at the start. -/
def tops : Nat → List Token → List Token
  | _, []         => []
  | depth, t :: r =>
    if t.closes then tops (depth - 1) r
    else if t.opens then tops (depth + 1) r
    else if depth = 0 then t :: tops 0 r
    else tops depth r

/-- What is balanced has no top inside of a group. -/
theorem tops_inside (hb : Balanced b) (d : Nat) (r : List Token) :
    tops (d + 1) (b ++ r) = tops (d + 1) r := by
  induction hb generalizing d r with
  | nil => rfl
  | flat ht _ ih =>
    simp only [Token.isFlat, Bool.and_eq_true, Bool.not_eq_true'] at ht
    simp [tops, ht.1, ht.2, ih]
  | group ho hc _ _ ih ih' =>
    rw [List.cons_append, tops]
    simp only [Token.not_closes_of_opens ho, ho, List.append_assoc, Bool.false_eq_true, if_false,
      if_true]
    rw [ih, List.cons_append, tops]
    simp [hc, ih']

theorem tops_flat (ht : t.isFlat) (r : List Token) : tops 0 (t :: r) = t :: tops 0 r := by
  simp only [Token.isFlat, Bool.and_eq_true, Bool.not_eq_true'] at ht
  simp [tops, ht.1, ht.2]

theorem tops_group {inside : List Token} (ho : o.opens) (hc : c.closes)
    (hi : Balanced inside) (r : List Token) : tops 0 (o :: (inside ++ c :: r)) = tops 0 r := by
  rw [tops]
  simp only [Token.not_closes_of_opens ho, ho, Bool.false_eq_true, if_false, if_true]
  rw [tops_inside hi, tops]
  simp [hc]

/-! ### Groups as filters -/

/-- The filter that is left of items in which no group is open. -/
def Finished (p : Permissions) (items : List Item) (f : Filter) : Prop :=
  (items = [] ∧ f = .empty ∧ p.Passes .empty) ∨
  (items ≠ [] ∧ ∃ done, Operators.atoms p items = .ok done ∧
    Operators.pass p done = .ok [.filter f])

/-- The filter of a keyword group. -/
def keywordFilter (opener : Token) (clauses : List (Text × Filter)) : Filter :=
  if opener.isName "if" then .conditional clauses else .attempt clauses

mutual

/-- The tokens of a program, and the items that are left when the outermost groups are filters. -/
inductive Grouped (p : Permissions) (ends : Token → Prop) : List Token → List Item → Prop
  | nil : Grouped p ends [] []
  | flat {t : Token} {r : List Token} {items : List Item} (ht : t.isFlat)
      (hr : Grouped p ends r items) : Grouped p ends (t :: r) (.token t :: items)
  | bracket {o c : Token} {inside r : List Token} {inner items : List Item} {body : Filter}
      (hc : o.kind.closer? = some c.kind) (hi : Grouped p ends inside inner)
      (hb : Finished p inner body) (hp : p.Passes (wrapped o.kind body))
      (hr : Grouped p ends r items) :
      Grouped p ends (o :: (inside ++ c :: r)) (.filter (wrapped o.kind body) :: items)
  | keyword {o c : Token} {words : List Text} {inside r : List Token} {items : List Item}
      {clauses : List (Text × Filter)} (ho : o.clauseWords? = some words) (hc : c.closes)
      (he : ends c) (hi : Clauses p ends words o inside clauses)
      (hp : p.Passes (keywordFilter o clauses)) (hr : Grouped p ends r items) :
      Grouped p ends (o :: (inside ++ c :: r)) (.filter (keywordFilter o clauses) :: items)

/-- The clauses of a keyword group: `t` is the word of the first one, and the tokens are those behind
it. -/
inductive Clauses (p : Permissions) (ends : Token → Prop) :
    List Text → Token → List Token → List (Text × Filter) → Prop
  | last {words : List Text} {t : Token} {w : Text} {segment : List Token} {items : List Item}
      {f : Filter} (ht : t.text = some w) (hs : Grouped p ends segment items)
      (hw : ∀ u, .token u ∈ items → ¬ u.StartsClause words) (hf : Finished p items f) :
      Clauses p ends words t segment [(w, f)]
  | cons {words : List Text} {t u : Token} {w : Text} {segment r : List Token}
      {items : List Item} {f : Filter} {clauses : List (Text × Filter)} (ht : t.text = some w)
      (hs : Grouped p ends segment items)
      (hw : ∀ u, .token u ∈ items → ¬ u.StartsClause words) (hf : Finished p items f)
      (hu : u.StartsClause words) (hr : Clauses p ends words u r clauses) :
      Clauses p ends words t (segment ++ u :: r) ((w, f) :: clauses)

end

/-- Any closer may end a keyword group. -/
def anyCloser : Token → Prop := fun _ => True

/-- Keyword groups end with `end`. -/
def endOnly : Token → Prop := fun c => c.isName Token.endWord

variable {p : Permissions} {ends : Token → Prop}

theorem closes_of_closer (h : o.kind.closer? = some c.kind) : c.closes := by
  unfold Token.Kind.closer? at h
  split at h <;> simp at h <;> simp [Token.closes, ← h]

mutual

theorem Grouped.balanced {ts : List Token} {items : List Item} :
    Grouped p ends ts items → Balanced ts
  | .nil => .nil
  | .flat ht hr => .flat ht hr.balanced
  | .bracket hc hi _ _ hr =>
    .group (Token.opens_of_closer hc) (closes_of_closer hc) hi.balanced hr.balanced
  | .keyword ho hc _ hi _ hr =>
    .group (Token.opens_of_clauseWords ho) hc
      (hi.balanced fun _ hu => Token.isFlat_of_startsClause ho hu) hr.balanced

theorem Clauses.balanced {words : List Text} {t : Token} {ts : List Token}
    {clauses : List (Text × Filter)} :
    Clauses p ends words t ts clauses → (∀ u : Token, u.StartsClause words → u.isFlat) →
      Balanced ts
  | .last _ hs _ _, _ => hs.balanced
  | .cons _ hs _ _ hu hr, hflat => hs.balanced.append (.flat (hflat _ hu) (hr.balanced hflat))

end

/-- Induction along the items of a program.  What stands inside of groups is left alone. -/
@[elab_as_elim]
theorem Grouped.along {motive : ∀ ts items, Grouped p ends ts items → Prop}
    (nil : motive [] [] .nil)
    (flat : ∀ {t : Token} {r : List Token} {items : List Item} (ht : t.isFlat)
      (hr : Grouped p ends r items), motive r items hr → motive _ _ (.flat ht hr))
    (bracket : ∀ {o c : Token} {inside r : List Token} {inner items : List Item} {body : Filter}
      (hc : o.kind.closer? = some c.kind) (hi : Grouped p ends inside inner)
      (hb : Finished p inner body) (hp : p.Passes (wrapped o.kind body))
      (hr : Grouped p ends r items), motive r items hr → motive _ _ (.bracket hc hi hb hp hr))
    (keyword : ∀ {o c : Token} {words : List Text} {inside r : List Token} {items : List Item}
      {clauses : List (Text × Filter)} (ho : o.clauseWords? = some words) (hc : c.closes)
      (he : ends c) (hi : Clauses p ends words o inside clauses)
      (hp : p.Passes (keywordFilter o clauses)) (hr : Grouped p ends r items),
      motive r items hr → motive _ _ (.keyword ho hc he hi hp hr)) :
    ∀ {ts : List Token} {items : List Item} (h : Grouped p ends ts items), motive ts items h
  | _, _, .nil => nil
  | _, _, .flat ht hr => flat ht hr (hr.along nil flat bracket keyword)
  | _, _, .bracket hc hi hb hp hr => bracket hc hi hb hp hr (hr.along nil flat bracket keyword)
  | _, _, .keyword ho hc he hi hp hr =>
    keyword ho hc he hi hp hr (hr.along nil flat bracket keyword)

theorem Grouped.append {x y : List Item} (ha : Grouped p ends a x)
    (hb : Grouped p ends b y) : Grouped p ends (a ++ b) (x ++ y) := by
  induction ha using Grouped.along with
  | nil => exact hb
  | flat ht _ ih => exact .flat ht ih
  | bracket hc hi hf hp _ ih => simpa using Grouped.bracket hc hi hf hp ih
  | keyword ho hc he hi hp _ ih => simpa using Grouped.keyword ho hc he hi hp ih

/-- The tokens that are still items are those outside of all groups. -/
theorem Grouped.mem_tops {ts : List Token} {items : List Item} {u : Token}
    (h : Grouped p ends ts items) : u ∈ tops 0 ts ↔ .token u ∈ items := by
  induction h using Grouped.along with
  | nil => simp [tops]
  | flat ht _ ih => simp [tops_flat ht, ih]
  | bracket hc hi _ _ _ ih =>
    rw [tops_group (Token.opens_of_closer hc) (closes_of_closer hc) hi.balanced]
    simpa using ih
  | keyword ho hc _ hi _ _ ih =>
    rw [tops_group (Token.opens_of_clauseWords ho) hc
      (hi.balanced fun _ hu => Token.isFlat_of_startsClause ho hu)]
    simpa using ih

end Bracket

end FilterShell
