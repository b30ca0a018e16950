import FilterShell.Proofs.Filter.Brackets

/-!
# Groups are found again

The converse of `pass_sound`: from a derivation of `Grouped` in which every keyword group ends with
`end`, the reader of groups returns the items of the derivation (`pass_complete`).

With another closer it need not: names that stand behind a group that `end` does not close stay
remembered, and one that happens to be a word of the group is taken for the start of a clause.
-/

namespace FilterShell.Bracket

variable {b segment ts : List Token} {items : List Item} {clauses : List (Text × Filter)}
  {places : List Nat} {cs : List (Token × List Token)}

/-- `R` reads, up to a length, what is grouped and finished. -/
def ReadsBack (p : Permissions) (n : Nat) (R : List Item → Except ParseError Filter) : Prop :=
  ∀ ts items f, ts.length < n → (∀ t ∈ ts, t.isPlain) → Grouped p endOnly ts items →
    Finished p items f → R (ts.map .token) = .ok f

variable {p : Permissions} {n : Nat} {R : List Item → Except ParseError Filter}

/-! ### From one place to another -/

/-- Where the reader of groups stands. -/
structure Visit where
  before : List Token
  after  : List Item
  depth  : Nat
  stop   : Nat
  names  : List Nat

/-- The reader gets from one place to the other. -/
def Visit.Leads (p : Permissions) (n : Nat) (R : List Item → Except ParseError Filter)
    (v w : Visit) : Prop :=
  ∀ h, ∃ h', pass (n := n) p (fun items _ => R items) v.before v.after h v.depth v.stop v.names =
    pass (n := n) p (fun items _ => R items) w.before w.after h' w.depth w.stop w.names

namespace Visit

theorem Leads.trans {u v w : Visit} (h₁ : u.Leads p n R v) (h₂ : v.Leads p n R w) :
    u.Leads p n R w := by
  intro h
  obtain ⟨h', e₁⟩ := h₁ h
  obtain ⟨h'', e₂⟩ := h₂ h'
  exact ⟨h'', e₁.trans e₂⟩

variable {t : Token} {before : List Token} {after : List Item} {depth stop : Nat}
  {names : List Nat}

theorem one_less (h : (t :: before).length + after.length ≤ n) :
    before.length + (Item.token t :: after).length ≤ n := by
  simp only [List.length_cons] at h ⊢
  omega

theorem leads_closer (ht : t.closes) :
    Leads p n R ⟨t :: before, after, 0, stop, names⟩
      ⟨before, .token t :: after, 1, before.length,
        if t.isName Token.endWord then [] else names⟩ :=
  fun h => ⟨one_less h, by rw [pass_closes (b := one_less h) ht]; simp⟩

theorem leads_closes (ht : t.closes) :
    Leads p n R ⟨t :: before, after, depth + 1, stop, names⟩
      ⟨before, .token t :: after, depth + 2, stop, names⟩ :=
  fun h => ⟨one_less h, by rw [pass_closes (b := one_less h) ht]; simp⟩

theorem leads_opens (ht : t.opens) :
    Leads p n R ⟨t :: before, after, depth + 2, stop, names⟩
      ⟨before, .token t :: after, depth + 1, stop, names⟩ :=
  fun h => ⟨one_less h, pass_opens ht⟩

theorem leads_name (ht : t.isFlat) (hk : t.kind = .name) :
    Leads p n R ⟨t :: before, after, 1, stop, names⟩
      ⟨before, .token t :: after, 1, stop, names ++ [before.length]⟩ :=
  fun h => ⟨one_less h, pass_name ht hk⟩

theorem leads_flat (ht : t.isFlat) (hk : ¬ (depth = 1 ∧ t.kind = .name)) :
    Leads p n R ⟨t :: before, after, depth, stop, names⟩
      ⟨before, .token t :: after, depth, stop, names⟩ :=
  fun h => ⟨one_less h, pass_flat ht hk⟩

/-! ### Tokens inside a group -/

/-- Two groups further in, whole groups are passed over. -/
theorem leads_balanced (hb : Balanced b) (d : Nat) (before : List Token) (after : List Item) :
    Leads p n R ⟨b.reverse ++ before, after, d + 2, stop, names⟩
      ⟨before, b.map .token ++ after, d + 2, stop, names⟩ := by
  induction hb generalizing d before after with
  | nil => exact fun h => ⟨h, rfl⟩
  | @flat t r ht _ ih =>
    have hr := ih d (t :: before) after
    simpa using hr.trans (leads_flat ht (by omega))
  | @group o c inside r ho hc _ _ ih ih' =>
    have hr := ih' d (c :: (inside.reverse ++ o :: before)) after
    have hi := ih (d + 1) (o :: before) (.token c :: (r.map .token ++ after))
    simpa using ((hr.trans (leads_closes hc)).trans hi).trans (leads_opens ho)

/-- Directly inside the outermost group, the places of names are remembered. -/
theorem leads_noted {words : List Text} {r : List Token}
    (hn : Noted words stop r places segment cs)
    (before : List Token) (after : List Item) (hstop : before.length + r.length = stop) :
    Leads p n R ⟨r.reverse ++ before, after, 1, stop, names⟩
      ⟨before, r.map .token ++ after, 1, stop, names ++ places⟩ := by
  induction hn generalizing before after with
  | nil => exact fun h => ⟨by simpa using h, by simp⟩
  | @start u r segment i places cs hf hu hi _ ih =>
    simp only [List.length_cons] at hstop
    obtain rfl : i = before.length := by omega
    have hr := ih (u :: before) after (by simp only [List.length_cons]; omega)
    simpa using hr.trans (leads_name hf hu.1)
  | @name u r segment i places cs hf hk hu hi _ ih =>
    simp only [List.length_cons] at hstop
    obtain rfl : i = before.length := by omega
    have hr := ih (u :: before) after (by simp only [List.length_cons]; omega)
    simpa using hr.trans (leads_name hf hk)
  | @flat u r segment places cs hf hk _ ih =>
    simp only [List.length_cons] at hstop
    have hr := ih (u :: before) after (by simp only [List.length_cons]; omega)
    simpa using hr.trans (leads_flat hf (by simp [hk]))
  | @group o c inside r segment places cs ho hc hb _ ih =>
    simp only [List.length_cons, List.length_append] at hstop
    have hr := ih (c :: (inside.reverse ++ o :: before)) after (by simp; omega)
    have hi := (hr.trans (leads_closes hc)).trans (leads_balanced hb 0 (o :: before) _)
    simpa using hi.trans (leads_opens ho)

end Visit

/-! ### The clauses of a derivation -/

variable {words : List Text} {stop : Nat}

/-- Whole groups and names that start no clause belong to the clause behind them. -/
theorem Noted.prepend {r : List Token}
    (hb : Balanced b) (hclean : ∀ u ∈ tops 0 b, ¬ u.StartsClause words)
    (h : Noted words stop r places segment cs) (hle : b.length + r.length ≤ stop) :
    ∃ places', Noted words stop (b ++ r) places' (b ++ segment) cs := by
  induction hb with
  | nil => exact ⟨places, h⟩
  | @flat t b ht _ ih =>
    rw [tops_flat ht] at hclean
    obtain ⟨hu, hclean⟩ := List.forall_mem_cons.1 hclean
    simp only [List.length_cons] at hle
    obtain ⟨places', hn⟩ := ih hclean (by omega)
    -- the place of a name is counted back from the closer
    by_cases hk : t.kind = .name
    · have hi : stop - (b ++ r).length - 1 + (b ++ r).length + 1 = stop := by
        simp only [List.length_append]
        omega
      exact ⟨_, .name ht hk hu hi hn⟩
    · exact ⟨_, .flat ht hk hn⟩
  | @group o c inside b ho hc hi _ _ ih =>
    rw [tops_group ho hc hi] at hclean
    simp only [List.length_cons, List.length_append] at hle
    obtain ⟨places', hn⟩ := ih hclean (by omega)
    exact ⟨places', by simpa using Noted.group ho hc hi hn⟩

theorem Balanced.noted (hb : Balanced b)
    (hclean : ∀ u ∈ tops 0 b, ¬ u.StartsClause words) (hle : b.length ≤ stop) :
    ∃ places, Noted words stop b places b [] := by
  simpa using Noted.prepend hb hclean .nil hle

/-- The clauses of a derivation are those that are cut at the words, and each of them is read. -/
theorem Clauses.noted (hR : ReadsBack p n R) (stop : Nat) {t : Token} {ts : List Token}
    {clauses : List (Text × Filter)} (h : Clauses p endOnly words t ts clauses)
    (hflat : ∀ u : Token, u.StartsClause words → u.isFlat) (hn : ts.length < n)
    (hp : ∀ u ∈ ts, u.isPlain) (hle : ts.length ≤ stop) :
    ∃ w places segment cs, t.text = some w ∧ Noted words stop ts places segment cs ∧
      List.Forall₂ (fun s q => q.1 = s.1 ∧ R s.2 = .ok q.2)
        ((w, segment.map .token) :: cs.map fun c => (c.1.text.getD [], c.2.map .token)) clauses := by
  match h with
  | @Clauses.last _ _ _ _ w segment items f ht hs hw hf =>
    have hclean : ∀ u ∈ tops 0 segment, ¬ u.StartsClause words := fun u hu =>
      hw u (hs.mem_tops.1 hu)
    obtain ⟨places, hnoted⟩ := hs.balanced.noted hclean hle
    exact ⟨w, places, segment, [], ht, hnoted, .cons ⟨rfl, hR _ _ _ hn hp hs hf⟩ .nil⟩
  | @Clauses.cons _ _ _ _ u w segment r items f clauses ht hs hw hf hu hr =>
    simp only [List.length_append, List.length_cons] at hn hle
    obtain ⟨hp₁, hp₂⟩ := List.forall_mem_append.1 hp
    obtain ⟨hpu, hp₂⟩ := List.forall_mem_cons.1 hp₂
    obtain ⟨w', places, segment', cs, hw', hnoted, hreads⟩ :=
      hr.noted hR stop hflat (by omega) hp₂ (by omega)
    have hi : stop - r.length - 1 + r.length + 1 = stop := by omega
    have hclean : ∀ u ∈ tops 0 segment, ¬ u.StartsClause words := fun u hu =>
      hw u (hs.mem_tops.1 hu)
    obtain ⟨places', hnoted'⟩ := Noted.prepend hs.balanced hclean
      (.start (hflat u hu) hu hi hnoted) (by simpa using hle)
    rw [List.append_nil] at hnoted'
    refine ⟨w, places', segment, (u, segment') :: cs, ht, hnoted',
      .cons ⟨rfl, hR _ _ _ (by omega) hp₁ hs hf⟩ ?_⟩
    simpa [hw'] using hreads

/-! ### One group -/

section Group

variable {i : Nat} {o c : Token} {inside : List Token} {done : List Item}
  {h : (inside.map Item.token ++ .token c :: done).length < n}

theorem group_keyword {w : Text} (ho : o.clauseWords? = some words) (hw : o.text = some w)
    (hn : Noted words stop inside places segment cs) (hi : i + inside.length + 1 = stop)
    (hr : List.Forall₂ (fun s q => q.1 = s.1 ∧ R s.2 = .ok q.2)
      ((w, segment.map .token) :: cs.map fun c => (c.1.text.getD [], c.2.map .token)) clauses) :
    ∃ kept, group (fun items _ => R items) i stop o (inside.map .token ++ .token c :: done) h
      places = .ok (keywordFilter o clauses, kept) := by
  rw [group, ho, hw]
  refine ⟨_, andThen_ok.2 ⟨_, clauseStarts_ok (hn.token_at hi _), andThen_ok.2 ⟨clauses, ?_, rfl⟩⟩⟩
  rw [readClauses_ok, clauses_spans, spans_noted hn hi]
  exact hr

theorem group_bracket {body : Filter} {names : List Nat} (ho : o.kind.closer? = some c.kind)
    (hi : i + inside.length + 1 = stop) (hr : R (inside.map .token) = .ok body) :
    group (fun items _ => R items) i stop o (inside.map .token ++ .token c :: done) h names =
      .ok (wrapped o.kind body, names) := by
  have hnone : o.clauseWords? = none := by
    cases hw : o.clauseWords? with
    | none => rfl
    | some words =>
      rw [(Token.name_of_clauseWords hw).1] at ho
      cases ho
  rw [group, hnone, getElem?_closer hi]
  simp only [ho, if_true]
  refine andThen_ok.2 ⟨body, ?_, rfl⟩
  simpa only [between_whole hi] using hr

theorem reverse_group (before : List Token) :
    (o :: (inside ++ [c])).reverse ++ before = c :: (inside.reverse ++ o :: before) := by
  simp

/-- The tokens of a group are fewer than all, and so are the items behind its opener. -/
theorem length_group {before : List Token}
    (h : (c :: (inside.reverse ++ o :: before)).length + done.length ≤ n) :
    inside.length < n ∧ (inside.map Item.token ++ .token c :: done).length < n := by
  simp only [List.length_cons, List.length_append, List.length_reverse, List.length_map] at h ⊢
  omega

/-- The opener of the outermost group. -/
theorem leads_group {before : List Token} {f : Filter} {names kept : List Nat} (ho : o.opens)
    (hi : before.length + inside.length + 1 = stop)
    (hg : group (fun items _ => R items) before.length stop o
      (inside.map .token ++ .token c :: done) h names = .ok (f, kept)) (hf : p.Passes f) :
    Visit.Leads p n R ⟨o :: before, inside.map .token ++ .token c :: done, 1, stop, names⟩
      ⟨before, .filter f :: done, 0, stop, kept⟩ := by
  intro h
  refine ⟨?_, ?_⟩
  · simp only [List.length_cons, List.length_append, List.length_map] at h ⊢
    omega
  · rw [pass]
    simp only [Token.not_closes_of_opens ho, ho, Bool.false_eq_true, if_false, if_true, hg,
      drop_closer hi]
    change (p.check f >>= fun _ => _) = _
    rw [show p.check f = .ok f from hf]
    rfl

/-- A whole group becomes its filter. -/
theorem leads_whole {before : List Token} {f : Filter} {names kept : List Nat}
    {start : Nat} (ho : o.opens) (hc : c.closes) (hi : before.length + inside.length + 1 = stop)
    (hn : Noted words stop inside places segment cs)
    (hg : group (fun items _ => R items) before.length stop o
      (inside.map .token ++ .token c :: done) h
      ((if c.isName Token.endWord then [] else names) ++ places) = .ok (f, kept))
    (hf : p.Passes f) :
    Visit.Leads p n R ⟨c :: (inside.reverse ++ o :: before), done, 0, start, names⟩
      ⟨before, .filter f :: done, 0, stop, kept⟩ := by
  have hlen : (inside.reverse ++ o :: before).length = stop := by
    simp only [List.length_append, List.length_reverse, List.length_cons]
    omega
  have hclose : Visit.Leads p n R ⟨c :: (inside.reverse ++ o :: before), done, 0, start, names⟩ _ :=
    Visit.leads_closer hc
  rw [hlen] at hclose
  have hinside := hclose.trans
    (Visit.leads_noted hn (o :: before) _ (by simp only [List.length_cons]; omega))
  exact hinside.trans (leads_group ho hi hg hf)

/-- The reader makes these items of the tokens, whatever stands around them and whatever it remembers from
the groups behind them. -/
def Returns (p : Permissions) (n : Nat) (R : List Item → Except ParseError Filter) (ts : List Token)
    (items : List Item) : Prop :=
  ∀ (before : List Token) (after : List Item) (start : Nat) (names : List Nat),
    (ts.reverse ++ before).length + after.length ≤ n →
    ∃ stop kept, Visit.Leads p n R ⟨ts.reverse ++ before, after, 0, start, names⟩
      ⟨before, items ++ after, 0, stop, kept⟩

theorem returns_flat {t : Token} (ht : t.isFlat) : Returns p n R [t] [.token t] :=
  fun _ _ start names _ => ⟨start, names, Visit.leads_flat ht (by simp)⟩

/-- A bracket group is found again. -/
theorem returns_bracket (hR : ReadsBack p n R) {inner : List Item} {body : Filter}
    (ho : o.kind.closer? = some c.kind) (hi : Grouped p endOnly inside inner)
    (hb : Finished p inner body) (hpass : p.Passes (wrapped o.kind body))
    (hp : ∀ t ∈ inside, t.isPlain) :
    Returns p n R (o :: (inside ++ [c])) [.filter (wrapped o.kind body)] := by
  intro before after start names hn
  rw [reverse_group] at hn ⊢
  obtain ⟨hlen, h⟩ := length_group hn
  obtain ⟨places, hnoted⟩ :
      ∃ places, Noted [] (before.length + inside.length + 1) inside places inside [] :=
    hi.balanced.noted (by simp [Token.StartsClause]) (by omega)
  exact ⟨_, _, leads_whole (h := h) (Token.opens_of_closer ho) (closes_of_closer ho) rfl hnoted
    (group_bracket ho rfl (hR _ _ _ hlen hp hi hb)) hpass⟩

theorem returns_keyword (hR : ReadsBack p n R)
    (ho : o.clauseWords? = some words) (hc : c.closes) (he : endOnly c)
    (hi : Clauses p endOnly words o inside clauses) (hpass : p.Passes (keywordFilter o clauses))
    (hp : ∀ t ∈ inside, t.isPlain) :
    Returns p n R (o :: (inside ++ [c])) [.filter (keywordFilter o clauses)] := by
  intro before after start names hn
  rw [reverse_group] at hn ⊢
  obtain ⟨hlen, h⟩ := length_group hn
  obtain ⟨w, places, segment, cs, hw, hnoted, hreads⟩ :=
    hi.noted hR (before.length + inside.length + 1)
      (fun _ hu => Token.isFlat_of_startsClause ho hu) hlen hp (by omega)
  obtain ⟨kept, hgroup⟩ := group_keyword (h := h) ho hw hnoted rfl hreads
  -- `end` starts with an empty memory
  have hend : c.isName Token.endWord = true := he
  exact ⟨_, _, leads_whole (h := h) (Token.opens_of_clauseWords ho) hc rfl hnoted
    (by simpa [hend] using hgroup) hpass⟩

end Group

/-! ### All tokens -/

theorem Grouped.length_le {ends : Token → Prop}
    (h : Grouped p ends ts items) : items.length ≤ ts.length := by
  induction h using Grouped.along with
  | nil => exact Nat.le_refl _
  | flat _ _ ih => exact Nat.succ_le_succ ih
  | bracket _ _ _ _ _ ih | keyword _ _ _ _ _ _ ih =>
    simp only [List.length_cons, List.length_append]
    omega

theorem Grouped.eq_nil_iff {ends : Token → Prop}
    (h : Grouped p ends ts items) : items = [] ↔ ts = [] := by
  cases h with
  | nil => simp
  | flat | bracket | keyword => simp

/-- What stands further back is read first. -/
theorem Returns.append {us : List Token} {others : List Item} (h : Returns p n R ts items)
    (hu : Returns p n R us others) (hle : others.length ≤ us.length) :
    Returns p n R (ts ++ us) (items ++ others) := by
  intro before after start names hn
  rw [List.reverse_append, List.append_assoc] at hn ⊢
  obtain ⟨stop, kept, hback⟩ := hu (ts.reverse ++ before) after start names hn
  have hn' : (ts.reverse ++ before).length + (others ++ after).length ≤ n := by
    simp only [List.length_append, List.length_reverse] at hn ⊢
    omega
  obtain ⟨stop', kept', hfront⟩ := h before (others ++ after) stop kept hn'
  rw [List.append_assoc]
  exact ⟨stop', kept', hback.trans hfront⟩

/-- **Groups are found again.**  The reader returns the items of a derivation. -/
theorem pass_complete (hR : ReadsBack p n R)
    (hg : Grouped p endOnly ts items) (hp : ∀ t ∈ ts, t.isPlain) : Returns p n R ts items := by
  induction hg using Grouped.along with
  | nil => exact fun _ _ start names _ => ⟨start, names, fun h => ⟨h, rfl⟩⟩
  | flat ht hr ih =>
    exact (returns_flat ht).append (ih (List.forall_mem_cons.1 hp).2) hr.length_le
  | bracket hc hi hb hpass hr ih =>
    obtain ⟨hpi, hpr⟩ := List.forall_mem_append.1 (List.forall_mem_cons.1 hp).2
    have hgroup := returns_bracket hR hc hi hb hpass hpi
    simpa using hgroup.append (ih (List.forall_mem_cons.1 hpr).2) hr.length_le
  | keyword ho hc he hi hpass hr ih =>
    obtain ⟨hpi, hpr⟩ := List.forall_mem_append.1 (List.forall_mem_cons.1 hp).2
    have hgroup := returns_keyword hR ho hc he hi hpass hpi
    simpa using hgroup.append (ih (List.forall_mem_cons.1 hpr).2) hr.length_le

end FilterShell.Bracket
