import FilterShell.Proofs.Filter.Clauses
import FilterShell.Proofs.Filter.Derivation

/-!
# Reading groups, place by place

`Bracket.pass` visits the tokens from right to left and keeps the number of open groups, the place of
the closer of the outermost one, and the places of names.  It returns the items of `Grouped` (`pass_sound`).

While a group is open, the tokens behind the visited place are whole groups with one closer too many
for each further open group (`Nested`).  Places that are left over from other groups lie behind the closer; if
one were taken for the start of a clause, the clause in front would have a closer too many (`no_start_beyond`).
-/

namespace FilterShell

variable {pending : List Token} {cs : List (Token × List Token)} {stale : List Nat} {i : Nat}
  {c : Token} {f : Filter} {word : Text} {words : List Text} {parts : List (Text × Filter)}

/-- The token has a meaning for the reader. -/
def Token.isPlain (t : Token) : Bool :=
  t.kind ≠ .comment && t.kind ≠ .illegal && t.kind ≠ .trailingWhitespace

namespace Bracket

/-- Whatever `R` reads, up to a length, is a list of tokens in groups. -/
def ReadsGroups (p : Permissions) (n : Nat) (R : List Item → Except ParseError Filter) : Prop :=
  ∀ items f, items.length < n → (∀ t, .token t ∈ items → t.isPlain) → R items = .ok f →
    ∃ ts inner, items = ts.map .token ∧ Grouped p anyCloser ts inner ∧ Finished p inner f

variable {p : Permissions} {n : Nat} {R : List Item → Except ParseError Filter}

theorem token_map_injective {a b : List Token} (h : a.map Item.token = b.map Item.token) :
    a = b :=
  List.map_injective_iff.2 (fun _ _ h => Item.token.inj h) h

theorem ReadsGroups.segment (hR : ReadsGroups p n R) {segment : List Token} {f : Filter}
    (hn : segment.length < n) (hp : ∀ t ∈ segment, t.isPlain)
    (h : R (segment.map .token) = .ok f) :
    ∃ inner, Grouped p anyCloser segment inner ∧ Finished p inner f := by
  obtain ⟨ts, inner, hts, hg, hf⟩ := hR _ _ (by simpa using hn) (by simpa using hp) h
  obtain rfl := token_map_injective hts
  exact ⟨inner, hg, hf⟩

/-- A list with a closer too many is not read. -/
theorem ReadsGroups.not_closes (hR : ReadsGroups p n R) {b : List Token}
    {rest : List Item} (hb : Balanced b) (hc : c.closes)
    (hn : (b.map Item.token ++ .token c :: rest).length < n)
    (hp : ∀ t, .token t ∈ b.map Item.token ++ .token c :: rest → t.isPlain) :
    R (b.map .token ++ .token c :: rest) ≠ .ok f := by
  intro h
  obtain ⟨ts, inner, hts, hg, -⟩ := hR _ _ hn hp h
  obtain ⟨ts₁, ts₂, rfl, h₁, h₂⟩ := List.append_eq_map_iff.1 hts
  obtain ⟨u, ts₃, rfl, hu, -⟩ := List.map_eq_cons_iff.1 h₂
  cases hu
  obtain rfl := token_map_injective h₁
  exact hb.not_closes hc hg.balanced

/-! ### One group -/

/-- Clauses that are read one by one are the clauses of a group. -/
theorem clauses_of_reads (hR : ReadsGroups p n R) {t : Token} {segment : List Token}
    (ht : t.text = some word)
    (hn : (segment ++ cs.flatMap fun c => c.1 :: c.2).length < n)
    (hp : ∀ u ∈ segment ++ cs.flatMap fun c => c.1 :: c.2, u.isPlain)
    (hs : ∀ u ∈ tops 0 segment, ¬ u.StartsClause words)
    (hcs : ∀ c ∈ cs, c.1.StartsClause words ∧ ∀ u ∈ tops 0 c.2, ¬ u.StartsClause words)
    (h : List.Forall₂ (fun s q => q.1 = s.1 ∧ R s.2 = .ok q.2)
      ((word, segment.map .token) :: cs.map fun c => (c.1.text.getD [], c.2.map .token)) parts) :
    Clauses p anyCloser words t (segment ++ cs.flatMap fun c => c.1 :: c.2) parts := by
  induction cs generalizing t word segment parts with
  | nil =>
    obtain ⟨⟨w, f⟩, rest, ⟨rfl, hf⟩, hrest, rfl⟩ := List.forall₂_cons_left_iff.1 h
    obtain rfl := List.forall₂_nil_left_iff.1 hrest
    simp only [List.flatMap_nil, List.append_nil] at hn hp ⊢
    obtain ⟨inner, hg, hfin⟩ := hR.segment hn hp hf
    exact .last ht hg (fun u hu => hs u (hg.mem_tops.2 hu)) hfin
  | cons c cs ih =>
    obtain ⟨⟨w, f⟩, rest, ⟨rfl, hf⟩, hrest, rfl⟩ := List.forall₂_cons_left_iff.1 h
    obtain ⟨⟨hc, hclean⟩, hcs⟩ := List.forall_mem_cons.1 hcs
    simp only [List.flatMap_cons, List.length_append, List.length_cons, List.forall_mem_append,
      List.forall_mem_cons] at hn hp
    obtain ⟨inner, hg, hfin⟩ := hR.segment (by omega) hp.1 hf
    obtain ⟨w', -, htext⟩ := hc.2
    have hr : Clauses p anyCloser words c.1 _ rest := ih htext
      (by simp only [List.length_append]; omega)
      (List.forall_mem_append.2 ⟨hp.2.1.2, hp.2.2⟩) hclean hcs
      (by simpa [htext] using hrest)
    simpa using Clauses.cons ht hg (fun u hu => hs u (hg.mem_tops.2 hu)) hfin hc hr

theorem mem_names_of_start {after : List Item} {names : List Nat}
    {q : Nat} (h : q ∈ (names.filterMap (start? i after words)).map (·.1)) : q ∈ names := by
  obtain ⟨s, hs, rfl⟩ := List.mem_map.1 h
  obtain ⟨q, hq, hs⟩ := List.mem_filterMap.1 hs
  rwa [start?_place hs]

theorem between_whole {stop : Nat} {rest : List Item} (hi : i + pending.length + 1 = stop) :
    between i (pending.map .token ++ rest) i stop = pending.map .token := by
  have hlen : stop - i - 1 = (pending.map Item.token).length := by
    simp only [List.length_map]
    omega
  simp only [between, Nat.sub_self, List.drop_zero, hlen]
  exact List.take_left

theorem getElem?_closer {stop : Nat} {done : List Item} (hi : i + pending.length + 1 = stop) :
    (pending.map Item.token ++ .token c :: done)[stop - i - 1]? = some (.token c) := by
  have hlen : stop - i - 1 = (pending.map Item.token).length := by
    simp only [List.length_map]
    omega
  rw [hlen]
  simp

theorem drop_closer {stop : Nat} {done : List Item} (h : i + pending.length + 1 = stop) :
    (pending.map Item.token ++ .token c :: done).drop (stop - i) = done := by
  have hlen : stop - i = (pending.map Item.token ++ [Item.token c]).length := by
    simp only [List.length_append, List.length_map, List.length_singleton]
    omega
  rw [List.append_cons, hlen]
  exact List.drop_left

/-- A span is cut out of the items. -/
theorem spans_sublist {stop : Nat} {after : List Item}
    {starts : List (Nat × Text)} {s : Text × List Item}
    (h : s ∈ spans i after word stop starts) : s.2.Sublist after := by
  have hb : ∀ a b, (between i after a b).Sublist after := fun a b =>
    (List.take_sublist _ _).trans (List.drop_sublist _ _)
  induction starts generalizing stop with
  | nil =>
    rw [List.mem_singleton.1 h]
    exact hb _ _
  | cons x rest ih =>
    rcases List.mem_append.1 h with h | h
    · exact ih h
    · rw [List.mem_singleton.1 h]
      exact hb _ _

theorem exists_read {l : List (Text × List Item)} {s : Text × List Item}
    (h : List.Forall₂ (fun s q => q.1 = s.1 ∧ R s.2 = .ok q.2) l parts) (hs : s ∈ l) :
    ∃ f, R s.2 = .ok f := by
  induction h with
  | nil => cases hs
  | cons hq _ ih =>
    rcases List.mem_cons.1 hs with rfl | hs
    · exact ⟨_, hq.2⟩
    · exact ih hs

/-- Starts behind the closer are not among those of a group that is read. -/
theorem no_start_beyond (hR : ReadsGroups p n R) {stop : Nat}
    {segment : List Token} {done : List Item} {places : List Nat}
    (hc : c.closes)
    (hn : Noted words stop pending places segment cs) (hi : i + pending.length + 1 = stop)
    (hlen : (pending.map Item.token ++ .token c :: done).length < n)
    (hp : ∀ t, .token t ∈ pending.map Item.token ++ .token c :: done → t.isPlain)
    (hstale : ∀ q ∈ stale, stop < q)
    (h : List.Forall₂ (fun s q => q.1 = s.1 ∧ R s.2 = .ok q.2)
      (spans i (pending.map .token ++ .token c :: done) word stop
        ((stale ++ places).filterMap (start? i (pending.map .token ++ .token c :: done) words)))
      parts) :
    stale.filterMap (start? i (pending.map .token ++ .token c :: done) words) = [] := by
  set after := pending.map Item.token ++ .token c :: done with hafter
  by_contra hne
  -- the last of the stale starts ends the clauses of the group itself
  obtain ⟨front, ⟨q, w⟩, hlast⟩ := (List.eq_nil_or_concat _).resolve_left hne
  rw [List.concat_eq_append] at hlast
  have hq : stop < q := by
    have hm : (q, w) ∈ stale.filterMap (start? i after words) := by simp [hlast]
    obtain ⟨q', hq', hs⟩ := List.mem_filterMap.1 hm
    have := start?_place hs
    have := hstale q' hq'
    omega
  rw [List.filterMap_append, hlast, List.append_assoc, List.singleton_append] at h
  have hmem : ∀ (front : List (Nat × Text)) (stop : Nat) (s : Text × List Item),
      s ∈ spans i after word q (places.filterMap (start? i after words)) →
      s ∈ spans i after word stop (front ++ (q, w) :: places.filterMap (start? i after words)) := by
    intro front
    induction front with
    | nil => intro stop s hs; exact List.mem_append_left _ hs
    | cons x front ih => intro stop s hs; exact List.mem_append_left _ (ih _ s hs)
  obtain ⟨w', b, rest, hb, hspan⟩ : ∃ w' b rest, Balanced b ∧ (w', b.map .token ++ .token c :: rest) ∈
      spans i after word q (places.filterMap (start? i after words)) := spans_beyond hn hi hq
  have hspan := hmem front stop _ hspan
  obtain ⟨f, hread⟩ := exists_read h hspan
  have hsub := spans_sublist hspan
  exact hR.not_closes hb hc (Nat.lt_of_le_of_lt hsub.length_le hlen)
    (fun t ht => hp t (hsub.subset ht)) hread

/-- Only places that were remembered are kept. -/
theorem group_kept {stop : Nat} {t : Token} {after : List Item} {hlen : after.length < n}
    {names kept : List Nat}
    (h : group (fun items _ => R items) i stop t after hlen names = .ok (f, kept)) :
    ∀ q ∈ kept, q ∈ names := by
  unfold group at h
  split at h
  · obtain ⟨starts, hstarts, h⟩ := andThen_ok.1 h
    obtain ⟨parts, -, h⟩ := andThen_ok.1 h
    obtain ⟨rfl, rfl⟩ := Prod.mk.inj (done_ok.1 h)
    obtain rfl := clauseStarts_eq hstarts
    exact fun q hq => mem_names_of_start hq
  · split at h
    · split at h
      · obtain ⟨body, -, h⟩ := andThen_ok.1 h
        obtain ⟨rfl, rfl⟩ := Prod.mk.inj (done_ok.1 h)
        exact fun q hq => hq
      · cases h
    · cases h

/-- **A group that is read.**  `pending` are the tokens between the opener and the closer, `places`
the places of the names directly among them, and `stale` places behind the closer. -/
theorem group_sound (hR : ReadsGroups p n R) {stop : Nat} {t : Token}
    {done : List Item} {places names : List Nat}
    {hlen : (pending.map Item.token ++ .token c :: done).length < n} (hc : c.closes)
    (hn : ∀ words, ∃ segment cs, Noted words stop pending places segment cs)
    (hi : i + pending.length + 1 = stop)
    (hp : ∀ u, .token u ∈ pending.map Item.token ++ .token c :: done → u.isPlain)
    (hstale : ∀ q ∈ stale, stop < q)
    (h : group (fun items _ => R items) i stop t (pending.map .token ++ .token c :: done) hlen
      (stale ++ places) = .ok (f, names)) :
    ∀ r items, p.Passes f → Grouped p anyCloser r items →
      Grouped p anyCloser (t :: (pending ++ c :: r)) (.filter f :: items) := by
  have hlen' := hlen
  simp only [List.length_append, List.length_map, List.length_cons] at hlen'
  have hplain : ∀ u ∈ pending, u.isPlain := fun u hu =>
    hp u (List.mem_append_left _ (List.mem_map_of_mem hu))
  unfold group at h
  split at h
  · rename_i words word hw ht
    obtain ⟨starts, hstarts, h⟩ := andThen_ok.1 h
    obtain ⟨parts, hparts, h⟩ := andThen_ok.1 h
    obtain ⟨rfl, rfl⟩ := Prod.mk.inj (done_ok.1 h)
    obtain rfl := clauseStarts_eq hstarts
    intro r items hpass hr
    obtain ⟨segment, cs, hnoted⟩ := hn words
    rw [readClauses_ok, clauses_spans] at hparts
    -- without the stale starts, the clauses are cut where `Noted` cuts
    have hno := no_start_beyond hR hc hnoted hi hlen hp hstale hparts
    rw [List.filterMap_append, hno, List.nil_append, spans_noted hnoted hi] at hparts
    have hclauses := clauses_of_reads hR ht (by rw [← hnoted.tokens_eq]; omega)
      (by rwa [← hnoted.tokens_eq]) hnoted.segment_clean hnoted.clauses_clean hparts
    rw [← hnoted.tokens_eq] at hclauses
    exact .keyword hw hc trivial hclauses hpass hr
  · split at h
    · rename_i closer hcloser
      rw [getElem?_closer hi] at hcloser
      cases hcloser
      split at h
      · rename_i hkind
        obtain ⟨body, hbody, h⟩ := andThen_ok.1 h
        obtain ⟨rfl, rfl⟩ := Prod.mk.inj (done_ok.1 h)
        replace hbody : R (pending.map .token) = .ok body := by
          rw [← between_whole hi]
          exact hbody
        obtain ⟨inner, hg, hf⟩ := hR.segment (by omega) hplain hbody
        exact fun r items hpass hr => .bracket hkind hg hf hpass hr
      · cases h
    · cases h

/-! ### One token -/

section Step

variable {read : (items : List Item) → items.length < n → Except ParseError Filter}
  {t : Token} {before : List Token} {after : List Item} {depth stop : Nat} {names : List Nat}
  {h : (t :: before).length + after.length ≤ n}
  {b : before.length + (Item.token t :: after).length ≤ n}

theorem pass_closes (ht : t.closes) :
    pass p read (t :: before) after h depth stop names =
      pass p read before (.token t :: after) b (depth + 1)
        (if depth = 0 then before.length else stop)
        (if depth = 0 ∧ t.isName Token.endWord then [] else names) := by
  rw [pass.eq_def]
  simp [ht]

theorem pass_opens (ht : t.opens) :
    pass p read (t :: before) after h (depth + 2) stop names =
      pass p read before (.token t :: after) b (depth + 1) stop names := by
  rw [pass]
  simp [ht, Token.not_closes_of_opens ht]

theorem pass_name (ht : t.isFlat) (hk : t.kind = .name) :
    pass p read (t :: before) after h 1 stop names =
      pass p read before (.token t :: after) b 1 stop (names ++ [before.length]) := by
  simp only [Token.isFlat, Bool.and_eq_true, Bool.not_eq_true'] at ht
  rw [pass.eq_def]
  simp [ht.1, ht.2, hk]

theorem pass_flat (ht : t.isFlat) (hk : ¬ (depth = 1 ∧ t.kind = .name)) :
    pass p read (t :: before) after h depth stop names =
      pass p read before (.token t :: after) b depth stop names := by
  simp only [Token.isFlat, Bool.and_eq_true, Bool.not_eq_true'] at ht
  rw [pass.eq_def]
  simp [ht.1, ht.2, hk]

end Step

/-- The opener of the outermost group. -/
theorem pass_group {t : Token} {before : List Token} {after : List Item} {stop : Nat}
    {names : List Nat} {h : (t :: before).length + after.length ≤ n} {out : List Item}
    (ht : t.opens)
    (hpass : pass p (fun items _ => R items) (t :: before) after h 1 stop names = .ok out) :
    ∃ f kept h₁ h₂, group (n := n) (fun items _ => R items) before.length stop t after h₁ names =
        .ok (f, kept) ∧ p.Passes f ∧
      pass (n := n) p (fun items _ => R items) before
        (.filter f :: after.drop (stop - before.length)) h₂ 0 stop kept = .ok out := by
  rw [pass] at hpass
  simp only [Token.not_closes_of_opens ht, ht, Bool.false_eq_true, if_false, if_true] at hpass
  obtain ⟨⟨f, kept⟩, hg, hpass⟩ := andThen_ok.1 hpass
  obtain ⟨g, hc, hpass⟩ := andThen_ok.1 hpass
  obtain ⟨rfl, hc⟩ := Permissions.check_eq_ok.1 hc
  exact ⟨_, _, _, _, hg, hc, hpass⟩

/-! ### Every token -/

/-- Tokens in front of place `stop`, with a closer too many for each of `depth` groups that are still
open, and the places of the names that stand directly in the outermost group. -/
inductive Nested (stop : Nat) : Nat → List Token → List Nat → Prop
  | here {r : List Token} {places : List Nat}
      (hr : ∀ words, ∃ segment cs, Noted words stop r places segment cs) : Nested stop 0 r places
  | deeper {d : Nat} {c : Token} {b r : List Token} {places : List Nat} (hb : Balanced b)
      (hc : c.closes) (hr : Nested stop d r places) : Nested stop (d + 1) (b ++ c :: r) places

theorem Nested.flat {stop d : Nat} {t : Token} {r : List Token} {places : List Nat} (ht : t.isFlat)
    (hk : ¬ (d + 1 = 1 ∧ t.kind = .name)) (h : Nested stop d r places) :
    Nested stop d (t :: r) places := by
  cases h with
  | here hr =>
    refine .here fun words => ?_
    obtain ⟨segment, cs, hn⟩ := hr words
    exact ⟨_, _, .flat ht (fun hname => hk ⟨rfl, hname⟩) hn⟩
  | deeper hb hc hr => exact .deeper (.flat ht hb) hc hr

theorem Nested.group {stop d : Nat} {o c : Token} {b r : List Token} {places : List Nat}
    (ho : o.opens) (hb : Balanced b) (hc : c.closes) (h : Nested stop d r places) :
    Nested stop d (o :: (b ++ c :: r)) places := by
  cases h with
  | here hr =>
    refine .here fun words => ?_
    obtain ⟨segment, cs, hn⟩ := hr words
    exact ⟨_, _, .group ho hc hb hn⟩
  | @deeper d c' b' r places hb' hc' hr =>
    rw [show o :: (b ++ c :: (b' ++ c' :: r)) = o :: (b ++ c :: b') ++ c' :: r by simp]
    exact .deeper (.group ho hc hb hb') hc' hr

/-- What is known at place `k`: the items behind it are `done`, and in front of them the tokens
`ahead` of the open group, if one is open. -/
inductive Reading (k : Nat) : List Item → Nat → Nat → List Nat → List Token → List Item → Prop
  | outside {after : List Item} {stop : Nat} {names : List Nat} (hn : ∀ q ∈ names, k ≤ q) :
      Reading k after 0 stop names [] after
  | inside {d stop : Nat} {c : Token} {pending : List Token} {done : List Item}
      {stale own : List Nat} (hc : c.closes) (hstop : stop = k + pending.length)
      (hstale : ∀ q ∈ stale, stop < q) (hn : Nested stop d pending own) :
      Reading k (pending.map .token ++ .token c :: done) (d + 1) stop (stale ++ own)
        (pending ++ [c]) done

section Step

variable {k depth stop : Nat} {t : Token} {after done : List Item} {names : List Nat}
  {ahead : List Token}

/-- A closer opens a group, seen from behind. -/
theorem Reading.closes (ht : t.closes) (h : Reading (k + 1) after depth stop names ahead done) :
    Reading k (.token t :: after) (depth + 1) (if depth = 0 then k else stop)
      (if depth = 0 ∧ t.isName Token.endWord then [] else names) (t :: ahead) done := by
  cases h with
  | outside hn =>
    have hstale : ∀ q ∈ if t.isName Token.endWord then [] else names, k < q := by
      intro q hq
      exact hn q (by split at hq <;> simp_all)
    have hn : Nested k 0 [] [] := .here fun _ => ⟨_, _, .nil⟩
    have hstop : k = k + ([] : List Token).length := rfl
    simpa using Reading.inside ht hstop hstale hn
  | @inside d stop c pending done stale own hc hstop hstale hn =>
    have hn' : Nested stop (d + 1) (t :: pending) own := .deeper .nil ht hn
    simpa using Reading.inside hc (by simp only [List.length_cons]; omega) hstale hn'

theorem Reading.opens (ht : t.opens) (h : Reading (k + 1) after (depth + 2) stop names ahead done) :
    Reading k (.token t :: after) (depth + 1) stop names (t :: ahead) done := by
  obtain _ | @⟨_, _, c, pending, _, stale, own, hc, hstop, hstale, hn⟩ := h
  obtain _ | @⟨_, c', b, r, _, hb, hc', hn⟩ := hn
  simpa using Reading.inside hc (by simp at hstop ⊢; omega) hstale (hn.group ht hb hc')

theorem Reading.name (ht : t.isFlat) (hk : t.kind = .name)
    (h : Reading (k + 1) after 1 stop names ahead done) :
    Reading k (.token t :: after) 1 stop (names ++ [k]) (t :: ahead) done := by
  obtain _ | @⟨_, _, c, pending, _, stale, own, hc, hstop, hstale, hn⟩ := h
  obtain ⟨hn⟩ := hn
  have hi : k + pending.length + 1 = stop := by omega
  have hn' : Nested stop 0 (t :: pending) (own ++ [k]) := .here (Noted.exists_name ht hk hi hn)
  simpa using Reading.inside hc (by simp only [List.length_cons]; omega) hstale hn'

theorem Reading.flat (ht : t.isFlat) (hk : ¬ (depth + 1 = 1 ∧ t.kind = .name))
    (h : Reading (k + 1) after (depth + 1) stop names ahead done) :
    Reading k (.token t :: after) (depth + 1) stop names (t :: ahead) done := by
  obtain _ | @⟨_, _, c, pending, _, stale, own, hc, hstop, hstale, hn⟩ := h
  simpa using Reading.inside hc (by simp only [List.length_cons]; omega) hstale (hn.flat ht hk)

/-- When a group is complete, nothing is open, and the places that are kept of it are not in front. -/
theorem Reading.complete {segment : List Token}
    {own kept : List Nat} (hn : Noted [] stop pending own segment cs)
    (hi : k + pending.length + 1 = stop) (hstale : ∀ q ∈ stale, stop < q)
    (hkept : ∀ q ∈ kept, q ∈ stale ++ own) : Reading k done 0 stop kept [] done := by
  refine .outside fun q hq => ?_
  rcases List.mem_append.1 (hkept q hq) with hq | hq
  · have := hstale q hq
    omega
  · have := hn.place_bounds q hq
    omega

end Step

/-- **The reader groups the tokens.**  Whatever it returns are the items of the tokens in groups. -/
theorem pass_sound (hR : ReadsGroups p n R) {before ahead : List Token} {after done out : List Item}
    {h : before.length + after.length ≤ n} {depth stop : Nat} {names : List Nat}
    (hr : Reading before.length after depth stop names ahead done)
    (hb : ∀ t ∈ before, t.isPlain) (ha : ∀ t, .token t ∈ after → t.isPlain)
    (hpass : pass p (fun items _ => R items) before after h depth stop names = .ok out) :
    ∃ items, Grouped p anyCloser (before.reverse ++ ahead) items ∧ out = items ++ done := by
  induction before generalizing after depth stop names ahead done with
  | nil =>
    cases hr with
    | outside =>
      cases hpass
      exact ⟨[], .nil, rfl⟩
    | inside => cases hpass
  | cons t before ih =>
    obtain ⟨ht, hb⟩ := List.forall_mem_cons.1 hb
    have ha' : ∀ u, .token u ∈ Item.token t :: after → u.isPlain := by
      intro u hu
      rcases List.mem_cons.1 hu with hu | hu
      · cases hu
        exact ht
      · exact ha u hu
    have h' : before.length + (Item.token t :: after).length ≤ n := by
      simp only [List.length_cons] at h ⊢
      omega
    rw [List.reverse_cons, List.append_assoc, List.singleton_append]
    by_cases hcl : t.closes
    · rw [pass_closes (b := h') hcl] at hpass
      exact ih (hr.closes hcl) hb ha' hpass
    by_cases hop : t.opens
    · rcases depth with _ | _ | depth
      · rw [pass] at hpass
        simp [hcl, hop] at hpass
      · -- the group is complete: its filter takes the place of its tokens
        obtain _ | @⟨_, _, c, pending, _, stale, own, hc, hstop, hstale, ⟨hn⟩⟩ := hr
        have hi : before.length + pending.length + 1 = stop := by
          simp only [List.length_cons] at hstop
          omega
        obtain ⟨f, kept, _, _, hg, hf, hpass⟩ := pass_group hop hpass
        have hgroup := group_sound hR hc hn hi ha hstale hg
        obtain ⟨_, _, hnoted⟩ := hn []
        have hrest : ∀ u, .token u ∈ Item.filter f ::
            (pending.map Item.token ++ .token c :: done).drop (stop - before.length) →
            u.isPlain := by
          intro u hu
          exact ha u (List.mem_of_mem_drop (by simpa using hu))
        obtain ⟨items, hitems, rfl⟩ :=
          ih (.complete hnoted hi hstale (group_kept hg)) hb hrest hpass
        refine ⟨items ++ [.filter f], ?_, by simp [drop_closer hi]⟩
        simpa using hitems.append (hgroup [] [] hf .nil)
      · rw [pass_opens (b := h') hop] at hpass
        exact ih (hr.opens hop) hb ha' hpass
    have hflat : t.isFlat := by simp [Token.isFlat, hcl, hop]
    by_cases hname : depth = 1 ∧ t.kind = .name
    · obtain ⟨rfl, hk⟩ := hname
      rw [pass_name (b := h') hflat hk] at hpass
      exact ih (hr.name hflat hk) hb ha' hpass
    · rw [pass_flat (b := h') hflat hname] at hpass
      cases depth with
      | zero =>
        -- outside of all groups the token stays an item
        obtain ⟨hn⟩ | _ := hr
        obtain ⟨items, hg, rfl⟩ :=
          ih (.outside fun q hq => Nat.le_of_lt (hn q hq)) hb ha' hpass
        refine ⟨items ++ [.token t], ?_, by simp⟩
        simpa using hg.append (.flat hflat .nil)
      | succ depth => exact ih (hr.flat hflat hname) hb ha' hpass

end Bracket

end FilterShell
