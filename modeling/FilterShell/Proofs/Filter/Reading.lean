import FilterShell.Proofs.Filter.Regrouping
import FilterShell.Proofs.Token.Written

/-!
# What programs are read as

For tokens that are *plain*, without comments, illegal tokens and white space at the end, the reader does
what `Grouped` and `Finished` say: `ofItems_sound` and `ofItems_complete`.  `ofSource_ok` brings a whole program
down to its plain tokens.
-/

namespace FilterShell

variable {source : Text} {f : Filter} {tokens ts : List Token} {items : List Item}

/-- The tokens of a source that mean something: no comments, no white space at the end. -/
def Token.significant (source : Text) : List Token :=
  (scan source).tokens.filter fun t => t.kind ≠ .comment ∧ t.kind ≠ .trailingWhitespace

theorem Token.isPlain_congr {t u : Token} (h : t.mark = u.mark) : t.isPlain = u.isPlain := by
  simp [isPlain, (Prod.mk.inj h).1]

namespace Filter

open FilterShell.Bracket

variable {p : Permissions} {lines : Bool}

/-! ### Plain tokens -/

theorem legalTokens_ok : legalTokens lines items = .ok tokens ↔
      items = tokens.map .token ∧ ∀ t ∈ tokens, t.kind ≠ .illegal := by
  induction items generalizing tokens with
  | nil => cases tokens <;> simp [legalTokens]
  | cons x items ih =>
    cases x with
    | filter f => cases tokens <;> simp [legalTokens]
    | value => cases tokens <;> simp [legalTokens]
    | token t =>
      simp only [legalTokens]
      split
      · rename_i ht
        constructor
        · intro h
          cases h
        · rintro ⟨h, hlegal⟩
          obtain ⟨u, rest, rfl, hu, -⟩ := List.map_eq_cons_iff.1 h.symm
          cases hu
          exact absurd ht (hlegal t List.mem_cons_self)
      · rename_i ht
        rw [andThen_ok]
        constructor
        · rintro ⟨rest, hrest, h⟩
          obtain rfl := done_ok.1 h
          obtain ⟨rfl, hlegal⟩ := ih.1 hrest
          exact ⟨rfl, List.forall_mem_cons.2 ⟨ht, hlegal⟩⟩
        · rintro ⟨h, hlegal⟩
          obtain ⟨u, rest, rfl, hu, hrest⟩ := List.map_eq_cons_iff.1 h.symm
          cases hu
          exact ⟨rest, ih.2 ⟨hrest.symm, (List.forall_mem_cons.1 hlegal).2⟩, rfl⟩

/-- White space at the end goes to the token in front of it. -/
theorem marks_mergeTrailing {merged : List Token}
    (hp : tokens.Pairwise fun t _ => t.kind ≠ .trailingWhitespace)
    (h : mergeTrailing tokens = .ok merged) :
    merged.map Token.mark =
      (tokens.filter fun t => t.kind ≠ .trailingWhitespace).map Token.mark := by
  fun_induction mergeTrailing tokens generalizing merged with
  | case1 =>
    cases h
    rfl
  | case2 t =>
    cases h
    by_cases ht : t.kind = .trailingWhitespace <;> simp [ht]
  | case3 t u hu s s' hs hs' =>
    cases h
    simp at hp
    simp [hp, hu, Token.mark]
  | case4 t u hu =>
    cases h
  | case5 t u hu =>
    cases h
    simp at hp
    simp [hp, hu]
  | case6 t u r hr ih =>
    obtain ⟨rest, hrest, h⟩ := andThen_ok.1 h
    obtain rfl := done_ok.1 h
    obtain ⟨ht, hp⟩ := List.pairwise_cons.1 hp
    have ht := ht u List.mem_cons_self
    rw [List.filter_cons_of_pos (by simpa using ht)]
    simp only [List.map_cons, ih hp hrest]

/-- Nothing stands in the way if all pieces of source are there. -/
theorem mergeTrailing_succeeds (h : ∀ t ∈ tokens, t.source.isSome) :
    ∃ merged, mergeTrailing tokens = .ok merged := by
  fun_induction mergeTrailing tokens with
  | case1 | case2 | case3 | case5 => exact ⟨_, rfl⟩
  | case4 t u hu hnone =>
    simp only [List.forall_mem_cons] at h
    obtain ⟨s, hs⟩ := Option.isSome_iff_exists.1 h.1
    obtain ⟨s', hs'⟩ := Option.isSome_iff_exists.1 h.2.1
    exact absurd hs' (hnone s s' hs)
  | case6 t u r hr ih =>
    obtain ⟨rest, hrest⟩ := ih (List.forall_mem_cons.1 h).2
    exact ⟨t :: rest, by rw [hrest]; rfl⟩

theorem mergeTrailing_plain (h : ∀ t ∈ ts, t.isPlain) : mergeTrailing ts = .ok ts := by
  fun_induction mergeTrailing ts with
  | case1 => rfl
  | case2 t => simp_all [Token.isPlain]
  | case3 t u hu => simp_all [Token.isPlain]
  | case4 t u hu => simp_all [Token.isPlain]
  | case5 t u hu => rfl
  | case6 t u r hr ih =>
    rw [ih (List.forall_mem_cons.1 h).2]
    rfl

/-- What is left when the plain tokens of a program are known. -/
def ReadAs (p : Permissions) (lines : Bool) (ts : List Token) (f : Filter) : Prop :=
  (ts = [] ∧ f = .empty ∧ p.Passes .empty) ∨
  (ts ≠ [] ∧ ∃ h grouped done,
    Bracket.pass (n := ts.length) p (fun inner _ => ofItems p lines inner) ts.reverse [] h 0 0 [] =
      .ok grouped ∧
    Operators.atoms p grouped = .ok done ∧ Operators.pass p done = .ok [.filter f])

theorem single_ok : single items = .ok f ↔ items = [.filter f] := by
  unfold single
  split
  · simp
  · rename_i hne
    simp only [reduceCtorEq, false_iff]
    exact hne f

/-- What reading items comes down to. -/
theorem ofItems_ok : ofItems p lines items = .ok f ↔ ∃ tokens merged,
      items.filter (!·.isComment) = tokens.map .token ∧ (∀ t ∈ tokens, t.kind ≠ .illegal) ∧
      mergeTrailing tokens = .ok merged ∧ ReadAs p lines merged f := by
  rw [ofItems]
  constructor
  · intro h
    split at h
    · cases h
    split at h
    · cases h
    rename_i tokens htokens
    obtain ⟨hitems, hlegal⟩ := legalTokens_ok.1 htokens
    refine ⟨tokens, ?_⟩
    split at h
    · cases h
    · rename_i hm
      obtain ⟨rfl, hp⟩ := Permissions.check_eq_ok.1 h
      exact ⟨[], hitems, hlegal, hm, .inl ⟨rfl, rfl, hp⟩⟩
    · rename_i t ts hm
      obtain ⟨grouped, hg, h⟩ := andThen_ok.1 h
      obtain ⟨done, hd, h⟩ := andThen_ok.1 h
      obtain ⟨out, ho, h⟩ := andThen_ok.1 h
      obtain rfl := single_ok.1 h
      exact ⟨_, hitems, hlegal, hm, .inr ⟨by simp, _, grouped, done, hg, hd, ho⟩⟩
  · rintro ⟨tokens, merged, hitems, hlegal, hm, hr⟩
    -- a value is no comment, so it would be among the tokens
    have hvalue : items.any Item.isValue = false := by
      rw [List.any_eq_false]
      rintro (_ | _ | _) hx <;> simp only [Item.isValue, Bool.false_eq_true, not_false_eq_true]
      have hmem : Item.value ∈ items.filter (!·.isComment) := by simp [hx, Item.isComment]
      simp [hitems] at hmem
    rw [hvalue, if_neg Bool.false_ne_true]
    have htokens : legalTokens lines _ = .ok tokens := legalTokens_ok.2 ⟨hitems, hlegal⟩
    split
    · simp_all
    rename_i tokens' htokens'
    obtain rfl : tokens = tokens' := Except.ok.inj (htokens.symm.trans htokens')
    split
    · simp_all
    · rename_i hm'
      obtain rfl : merged = [] := Except.ok.inj (hm.symm.trans hm')
      obtain ⟨-, rfl, hp⟩ | ⟨hne, -⟩ := hr
      · exact hp
      · exact absurd rfl hne
    · rename_i t ts hm'
      obtain rfl : merged = t :: ts := Except.ok.inj (hm.symm.trans hm')
      obtain ⟨hnil, -⟩ | ⟨-, h, grouped, done, hg, hd, ho⟩ := hr
      · cases hnil
      · exact andThen_ok.2 ⟨grouped, hg, andThen_ok.2 ⟨done, hd, andThen_ok.2 ⟨_, ho, rfl⟩⟩⟩

theorem filter_plain (h : ∀ t, .token t ∈ items → t.isPlain) :
    items.filter (!·.isComment) = items := by
  refine List.filter_eq_self.2 fun x hx => ?_
  cases x with
  | token t =>
    have := h t hx
    simp_all [Token.isPlain, Item.isComment]
  | filter | value => rfl

theorem ofItems_plain (h : ∀ t, .token t ∈ items → t.isPlain) :
    ofItems p lines items = .ok f ↔ ∃ ts, items = ts.map .token ∧ ReadAs p lines ts f := by
  rw [ofItems_ok, filter_plain h]
  constructor
  · rintro ⟨ts, merged, rfl, -, hm, hr⟩
    rw [mergeTrailing_plain (by simpa using h)] at hm
    cases hm
    exact ⟨ts, rfl, hr⟩
  · rintro ⟨ts, rfl, hr⟩
    have h : ∀ t ∈ ts, t.isPlain := by simpa using h
    refine ⟨ts, ts, rfl, fun t ht => ?_, mergeTrailing_plain h, hr⟩
    have := h t ht
    simp_all [Token.isPlain]

/-! ### Groups -/

/-- One level of reading, when the levels below are known. -/
theorem ReadAs.grouped {ts : List Token} {f : Filter}
    (hR : ReadsGroups p ts.length (ofItems p lines)) (hp : ∀ t ∈ ts, t.isPlain)
    (h : ReadAs p lines ts f) : ∃ items, Grouped p anyCloser ts items ∧ Finished p items f := by
  obtain ⟨rfl, rfl, hp⟩ | ⟨hne, hlen, grouped, done, hg, hd, ho⟩ := h
  · exact ⟨[], .nil, .inl ⟨rfl, rfl, hp⟩⟩
  · have hstart : Reading ts.reverse.length [] 0 0 [] [] [] := .outside (by simp)
    obtain ⟨items, hitems, rfl⟩ := pass_sound hR hstart (by simpa using hp) (by simp) hg
    simp only [List.reverse_reverse, List.append_nil] at hitems hd
    refine ⟨items, hitems, .inr ⟨?_, done, hd, ho⟩⟩
    rwa [ne_eq, hitems.eq_nil_iff]

/-- **Programs are read in groups.** -/
theorem ofItems_sound (n : Nat) : ReadsGroups p n (ofItems p lines) := by
  induction n with
  | zero => exact fun _ _ h => absurd h (Nat.not_lt_zero _)
  | succ n ih =>
    intro items f hn hp h
    obtain ⟨ts, rfl, hr⟩ := (ofItems_plain hp).1 h
    have hle : ts.length ≤ n := by simpa using Nat.le_of_lt_succ hn
    have hR : ReadsGroups p ts.length (ofItems p lines) := fun items f h =>
      ih items f (Nat.lt_of_lt_of_le h hle)
    obtain ⟨inner, hg, hf⟩ := hr.grouped hR (by simpa using hp)
    exact ⟨ts, inner, rfl, hg, hf⟩

theorem readAs_grouped (hR : ReadsBack p ts.length (ofItems p lines)) (hp : ∀ t ∈ ts, t.isPlain)
    (hg : Grouped p endOnly ts items) (hf : Finished p items f) : ReadAs p lines ts f := by
  obtain ⟨rfl, rfl, hpass⟩ | ⟨hne, done, hd, ho⟩ := hf
  · exact .inl ⟨hg.eq_nil_iff.1 rfl, rfl, hpass⟩
  · obtain ⟨stop, names, hleads⟩ := pass_complete hR hg hp [] [] 0 [] (by simp)
    simp only [List.append_nil] at hleads
    obtain ⟨h', hpass⟩ := hleads (by simp)
    exact .inr ⟨fun hnil => hne (hg.eq_nil_iff.2 hnil), _, items, done, hpass, hd, ho⟩

/-- **Groups are read again.** -/
theorem ofItems_complete (n : Nat) : ReadsBack p n (ofItems p lines) := by
  induction n with
  | zero => exact fun _ _ _ h => absurd h (Nat.not_lt_zero _)
  | succ n ih =>
    intro ts items f hn hp hg hf
    have hR : ReadsBack p ts.length (ofItems p lines) := fun ts' items f h =>
      ih ts' items f (Nat.lt_of_lt_of_le h (Nat.le_of_lt_succ hn))
    refine (ofItems_plain (by simpa using hp)).2 ⟨ts, rfl, readAs_grouped hR hp hg hf⟩

/-! ### Sources -/

theorem filter_map_token (tokens : List Token) :
    (tokens.map Item.token).filter (!·.isComment) =
      (tokens.filter fun t => t.kind ≠ .comment).map .token := by
  rw [List.filter_map]
  congr 1
  exact List.filter_congr fun t _ => by simp [Item.isComment]

theorem ofSource_ok : ofSource p lines source = .ok f ↔ (Token.scan source).error = none ∧
      ofItems p lines ((Token.scan source).tokens.map .token) = .ok f := by
  unfold ofSource
  cases h : (Token.scan source).error <;> simp [h]

/-- What holds of the marks of tokens carries over to tokens with the same marks. -/
theorem forall_of_marks {us : List Token} {P : Token → Prop}
    (hP : ∀ {t u : Token}, t.mark = u.mark → P u → P t) (h : ts.map Token.mark = us.map Token.mark)
    (hu : ∀ u ∈ us, P u) : ∀ t ∈ ts, P t := by
  intro t ht
  obtain ⟨u, humem, hmark⟩ := List.mem_map.1 (h ▸ List.mem_map_of_mem ht)
  exact hP hmark.symm (hu u humem)

/-- The marks of a source are those of its tokens that mean something. -/
theorem marks_merged {merged : List Token}
    (hm : mergeTrailing ((Token.scan source).tokens.filter fun t => t.kind ≠ .comment) = .ok merged) :
    merged.map Token.mark = (Token.significant source).map Token.mark := by
  rw [marks_mergeTrailing ((Token.scan_regular source).2.filter _) hm, List.filter_filter]
  congr 1
  exact List.filter_congr fun t _ => by simp [Bool.and_comm]

theorem isPlain_of_significant {t : Token}
    (hlegal : ∀ t ∈ (Token.scan source).tokens.filter fun t => t.kind ≠ .comment, t.kind ≠ .illegal)
    (ht : t ∈ Token.significant source) : t.isPlain := by
  obtain ⟨hmem, hk⟩ := List.mem_filter.1 ht
  simp only [ne_eq, Bool.decide_and, decide_not, Bool.and_eq_true, Bool.not_eq_true',
    decide_eq_false_iff_not] at hk
  have hillegal := hlegal t (by simpa using ⟨hmem, hk.1⟩)
  simp [Token.isPlain, hk, hillegal]

/-- **A program that is read is made of groups.**  Its tokens are those of the source that mean
something. -/
theorem ofSource_sound (h : ofSource p lines source = .ok f) :
    ∃ ts items, ts.map Token.mark = (Token.significant source).map Token.mark ∧
      (∀ t ∈ ts, t.isPlain ∧ t.Regular) ∧ Grouped p anyCloser ts items ∧ Finished p items f := by
  obtain ⟨tokens, merged, htokens, hlegal, hm, hr⟩ := ofItems_ok.1 (ofSource_ok.1 h).2
  rw [filter_map_token] at htokens
  obtain rfl := token_map_injective htokens
  have hmarks := marks_merged hm
  have hall : ∀ t ∈ merged, t.isPlain ∧ t.Regular := by
    refine forall_of_marks (fun hmark hu => ?_) hmarks fun u hu => ?_
    · rwa [Token.isPlain_congr hmark, Token.regular_congr hmark]
    · exact ⟨isPlain_of_significant hlegal hu,
        (Token.scan_regular source).1 u (List.mem_of_mem_filter hu)⟩
  obtain ⟨items, hg, hf⟩ := hr.grouped (ofItems_sound _) fun t ht => (hall t ht).1
  exact ⟨merged, items, hmarks, hall, hg, hf⟩

/-- **A source is read as its tokens say.**  White space at its end makes no difference. -/
theorem ofSource_complete {ms : List Mark} (hs : (Token.scan source).Gives ms)
    (h : ∀ ts : List Token, ts.map Token.mark = ms → (∀ t ∈ ts, t.isPlain) →
      ReadAs p lines ts f) :
    ofSource p lines source = .ok f := by
  obtain ⟨herror, hgood, hmarks⟩ := hs
  obtain ⟨merged, hm⟩ := mergeTrailing_succeeds (Token.scan_source source)
  have hmerged := marks_mergeTrailing (Token.scan_regular source).2 hm
  have hplain : ∀ t ∈ merged, t.isPlain := by
    refine forall_of_marks (fun hmark hu => ?_) hmerged fun u hu => ?_
    · rwa [Token.isPlain_congr hmark]
    · obtain ⟨hu, hk⟩ := List.mem_filter.1 hu
      have hkind := hgood u hu
      simp_all [Token.isPlain]
  refine ofSource_ok.2 ⟨herror, ofItems_ok.2 ⟨_, merged, ?_, fun t ht => (hgood t ht).2, hm,
    h merged (hmerged.trans hmarks) hplain⟩⟩
  rw [filter_map_token, List.filter_eq_self.2]
  exact fun t ht => by simpa using (hgood t ht).1

end Filter

end FilterShell
