import FilterShell.Proofs.Filter.Grouping
import Mathlib.Data.List.Forall2
import Mathlib.Tactic.Set

/-!
# The clauses of a keyword group, by place

The reader of groups remembers the places of the names that stand directly in a group and cuts the
group at those that start a clause.  `Noted` says what this comes to, and `spans_noted` is the result: between
the places that the reader computes lie exactly these segments.
-/

namespace FilterShell.Bracket

variable {i q : Nat} {word : Text} {after : List Item} {u : Token} {starts : List (Nat × Text)}
  {x : Item}

/-! ### Clauses without their bounds -/

/-- The words and items of the clauses, as the reader computes them from places. -/
def spans (i : Nat) (after : List Item) (word : Text) :
    Nat → List (Nat × Text) → List (Text × List Item)
  | stop, []                 => [(word, between i after i stop)]
  | stop, (place, w) :: rest =>
    spans i after word place rest ++ [(w, between i after place stop)]

theorem clauses_spans {n : Nat} (h : after.length < n)
    (word : Text) (stop : Nat) (starts : List (Nat × Text)) :
    (clauses i after h word stop starts).map (fun c => (c.word, c.items)) =
      spans i after word stop starts := by
  induction starts generalizing stop with
  | nil => rfl
  | cons s rest ih => simp [clauses, spans, ih]

/-- The clauses are read one by one. -/
theorem readClauses_ok {n : Nat} {R : List Item → Except ParseError Filter}
    {cs : List (Clause n)} {parts : List (Text × Filter)} :
    readClauses (fun items _ => R items) cs = .ok parts ↔
      List.Forall₂ (fun s q => q.1 = s.1 ∧ R s.2 = .ok q.2)
        (cs.map fun c => (c.word, c.items)) parts := by
  induction cs generalizing parts with
  | nil =>
    simp only [readClauses, List.map_nil, List.forall₂_nil_left_iff, Except.ok.injEq]
    exact eq_comm
  | cons c r ih =>
    simp only [readClauses, List.map_cons, List.forall₂_cons_left_iff]
    constructor
    · intro h
      obtain ⟨f, hf, h⟩ := andThen_ok.1 h
      obtain ⟨rest, hrest, h⟩ := andThen_ok.1 h
      exact ⟨(c.word, f), rest, ⟨rfl, hf⟩, ih.1 hrest, done_ok.1 h⟩
    · rintro ⟨⟨w, f⟩, rest, ⟨rfl, hf⟩, hrest, rfl⟩
      exact andThen_ok.2 ⟨f, hf, andThen_ok.2 ⟨rest, ih.2 hrest, rfl⟩⟩

/-- The place and word of a clause that starts at a place. -/
def start? (i : Nat) (after : List Item) (words : List Text) (place : Nat) : Option (Nat × Text) :=
  match after[place - i - 1]? with
  | some (.token t) => (t.text.filter words.contains).map fun w => (place, w)
  | _               => none

/-- The starts are those of the remembered places. -/
theorem clauseStarts_eq {words : List Text} {places : List Nat}
    (h : clauseStarts i after words places = .ok starts) :
    starts = places.filterMap (start? i after words) := by
  induction places generalizing starts with
  | nil =>
    cases h
    rfl
  | cons place rest ih =>
    rw [clauseStarts] at h
    split at h
    · cases h
    · rename_i t ht
      obtain ⟨s, hs, h⟩ := andThen_ok.1 h
      obtain rfl := ih hs
      cases hw : t.text with
      | none =>
        rw [hw] at h
        rw [done_ok.1 h]
        simp [start?, ht, hw]
      | some w =>
        rw [hw] at h
        rw [done_ok.1 h]
        by_cases hm : w ∈ words <;> simp [start?, ht, hw, hm]
    · cases h

theorem clauseStarts_ok {words : List Text} {places : List Nat}
    (h : ∀ q ∈ places, ∃ t, after[q - i - 1]? = some (.token t)) :
    clauseStarts i after words places = .ok (places.filterMap (start? i after words)) := by
  induction places with
  | nil => rfl
  | cons place rest ih =>
    obtain ⟨⟨t, ht⟩, hrest⟩ := List.forall_mem_cons.1 h
    rw [clauseStarts, ht, ih hrest]
    cases hw : t.text with
    | none => simp [start?, ht, hw, bind, Except.bind, pure, Except.pure]
    | some w =>
      by_cases hm : w ∈ words <;>
        simp [start?, ht, hw, hm, bind, Except.bind, pure, Except.pure]

/-! ### One more item in front -/

theorem between_cons {start stop : Nat} (h : i < start) :
    between i (x :: after) start stop = between (i + 1) after start stop := by
  obtain ⟨k, rfl⟩ := Nat.exists_eq_add_of_lt h
  simp only [between]
  rw [show i + k + 1 - i = k + 1 by omega, show i + k + 1 - (i + 1) = k by omega,
    List.drop_succ_cons]

theorem between_self_cons {stop : Nat} (h : i + 1 < stop) :
    between i (x :: after) i stop = x :: between (i + 1) after (i + 1) stop := by
  obtain ⟨k, rfl⟩ := Nat.exists_eq_add_of_lt h
  simp only [between, Nat.sub_self, List.drop_zero]
  rw [show i + 1 + k + 1 - i - 1 = k + 1 by omega,
    show i + 1 + k + 1 - (i + 1) - 1 = k by omega, List.take_succ_cons]

theorem start?_cons {words : List Text}
    (h : i + 1 < q) : start? i (x :: after) words q = start? (i + 1) after words q := by
  obtain ⟨k, rfl⟩ := Nat.exists_eq_add_of_lt h
  simp only [start?]
  rw [show i + 1 + k + 1 - i - 1 = k + 1 by omega,
    show i + 1 + k + 1 - (i + 1) - 1 = k by omega, List.getElem?_cons_succ]

/-- An item in front of all places goes to the first clause. -/
theorem spans_cons {stop : Nat}
    (hs : ∀ s ∈ starts, i + 1 < s.1) (h : i + 1 < stop) : spans i (x :: after) word stop starts =
      (spans (i + 1) after word stop starts).modifyHead fun s => (s.1, x :: s.2) := by
  induction starts generalizing stop with
  | nil => simp [spans, between_self_cons h]
  | cons s rest ih =>
    obtain ⟨hs₁, hs₂⟩ := List.forall_mem_cons.1 hs
    have hne : spans (i + 1) after word s.1 rest ≠ [] := by
      cases rest <;> simp [spans]
    obtain ⟨a, l, hal⟩ := List.exists_cons_of_ne_nil hne
    simp [spans, ih hs₂ hs₁, between_cons (Nat.lt_of_succ_lt hs₁), hal]

/-- A start in front of all others: the clause of the opener is empty. -/
theorem spans_start {stop : Nat} {w : Text}
    (hs : ∀ s ∈ starts, i + 1 < s.1) : spans i (x :: after) word stop (starts ++ [(i + 1, w)]) =
      (word, []) :: spans (i + 1) after w stop starts := by
  induction starts generalizing stop with
  | nil =>
    have h₀ : between i (x :: after) i (i + 1) = [] := by simp [between]
    simp [spans, h₀, between_cons (Nat.lt_succ_self i)]
  | cons s rest ih =>
    obtain ⟨hs₁, hs₂⟩ := List.forall_mem_cons.1 hs
    simp [spans, ih hs₂, between_cons (Nat.lt_of_succ_lt hs₁)]

/-- Items in front of all places go to the first clause. -/
theorem spans_append {stop : Nat}
    (front : List Item) (hs : ∀ s ∈ starts, i + front.length < s.1) (h : i + front.length < stop) :
    spans i (front ++ after) word stop starts =
      (spans (i + front.length) after word stop starts).modifyHead
        fun s => (s.1, front ++ s.2) := by
  induction front generalizing i with
  | nil =>
    cases hsp : spans i after word stop starts <;> simp [hsp]
  | cons x front ih =>
    simp only [List.length_cons] at hs h
    have hi : i + 1 + front.length = i + (front.length + 1) := by omega
    rw [List.cons_append, spans_cons (fun s hm => by have := hs s hm; omega) (by omega),
      ih (fun s hm => by have := hs s hm; omega) (by omega), List.length_cons, hi]
    cases hsp : spans (i + (front.length + 1)) after word stop starts <;> simp

theorem start?_append {words : List Text} (front : List Item) (h : i + front.length < q) :
    start? i (front ++ after) words q = start? (i + front.length) after words q := by
  induction front generalizing i with
  | nil => rfl
  | cons x front ih =>
    simp only [List.length_cons] at h
    rw [List.cons_append, start?_cons (by omega), ih (by omega), List.length_cons]
    congr 1
    omega

theorem start?_place {words : List Text} {s : Nat × Text}
    (h : start? i after words q = some s) : s.1 = q := by
  unfold start? at h
  split at h
  · obtain ⟨w, -, rfl⟩ := Option.map_eq_some_iff.1 h
    rfl
  · cases h

/-! ### Places of names -/

/-- The tokens `r` in front of place `stop`, with the places of the names that stand directly among
them, cut at the words: a first segment, and each later clause with its word. -/
inductive Noted (words : List Text) (stop : Nat) :
    List Token → List Nat → List Token → List (Token × List Token) → Prop
  | nil : Noted words stop [] [] [] []
  | start {u : Token} {r segment : List Token} {i : Nat} {places : List Nat}
      {clauses : List (Token × List Token)} (hf : u.isFlat) (hu : u.StartsClause words)
      (hi : i + r.length + 1 = stop) (hr : Noted words stop r places segment clauses) :
      Noted words stop (u :: r) (places ++ [i]) [] ((u, segment) :: clauses)
  | name {u : Token} {r segment : List Token} {i : Nat} {places : List Nat}
      {clauses : List (Token × List Token)} (hf : u.isFlat) (hk : u.kind = .name)
      (hu : ¬ u.StartsClause words) (hi : i + r.length + 1 = stop)
      (hr : Noted words stop r places segment clauses) :
      Noted words stop (u :: r) (places ++ [i]) (u :: segment) clauses
  | flat {u : Token} {r segment : List Token} {places : List Nat}
      {clauses : List (Token × List Token)} (hf : u.isFlat) (hk : u.kind ≠ .name)
      (hr : Noted words stop r places segment clauses) :
      Noted words stop (u :: r) places (u :: segment) clauses
  | group {o c : Token} {inside r segment : List Token} {places : List Nat}
      {clauses : List (Token × List Token)} (ho : o.opens) (hc : c.closes)
      (hb : Balanced inside) (hr : Noted words stop r places segment clauses) :
      Noted words stop (o :: (inside ++ c :: r)) places (o :: (inside ++ c :: segment)) clauses

variable {words : List Text} {stop : Nat} {r segment : List Token} {places : List Nat}
  {cs : List (Token × List Token)}

section

variable (h : Noted words stop r places segment cs)

include h

/-- The places are those of `r`. -/
theorem Noted.place_bounds : ∀ q ∈ places, stop ≤ q + r.length ∧ q < stop := by
  induction h with
  | nil => simp
  | start _ _ hi _ ih | name _ _ _ hi _ ih =>
    intro q hq
    rcases List.mem_append.1 hq with hq | hq
    · have := ih q hq
      simp only [List.length_cons]
      omega
    · simp only [List.mem_singleton] at hq
      simp only [List.length_cons]
      omega
  | flat _ _ _ ih | group _ _ _ _ ih =>
    intro q hq
    have := ih q hq
    simp only [List.length_cons, List.length_append]
    omega

/-- At a place that is noted there is a token. -/
theorem Noted.token_at (hi : i + r.length + 1 = stop) (rest : List Item) :
    ∀ q ∈ places, ∃ t, (r.map Item.token ++ rest)[q - i - 1]? = some (.token t) := by
  intro q hq
  have := h.place_bounds q hq
  have hlt : q - i - 1 < r.length := by omega
  refine ⟨r[q - i - 1], ?_⟩
  rw [List.getElem?_append_left (by simpa using hlt)]
  simp [hlt]

theorem Noted.balanced : Balanced r := by
  induction h with
  | nil => exact .nil
  | start hf _ _ _ ih | name hf _ _ _ _ ih | flat hf _ _ ih => exact .flat hf ih
  | group ho hc hb _ ih => exact .group ho hc hb ih

/-- No word starts a clause inside the first segment. -/
theorem Noted.segment_clean : ∀ u ∈ tops 0 segment, ¬ u.StartsClause words := by
  induction h with
  | nil | start => simp [tops]
  | name hf hk hu hi _ ih =>
    rw [tops_flat hf]
    exact List.forall_mem_cons.2 ⟨hu, ih⟩
  | flat hf hk _ ih =>
    rw [tops_flat hf]
    exact List.forall_mem_cons.2 ⟨fun hu => hk hu.1, ih⟩
  | group ho hc hb _ ih => rwa [tops_group ho hc hb]

/-- The same for every later clause, and each has a word of its own. -/
theorem Noted.clauses_clean :
    ∀ c ∈ cs, c.1.StartsClause words ∧ ∀ u ∈ tops 0 c.2, ¬ u.StartsClause words := by
  induction h with
  | nil => simp
  | start hf hu hi hr ih => exact List.forall_mem_cons.2 ⟨⟨hu, hr.segment_clean⟩, ih⟩
  | name _ _ _ _ _ ih | flat _ _ _ ih | group _ _ _ _ ih => exact ih

/-- The tokens are those of the first segment and of the clauses. -/
theorem Noted.tokens_eq : r = segment ++ cs.flatMap fun c => c.1 :: c.2 := by
  induction h with
  | nil => rfl
  | start _ _ _ _ ih => simpa using ih
  | name _ _ _ _ _ ih | flat _ _ _ ih => simpa using ih
  | group _ _ _ _ ih => simpa using ih

end

/-- Names in the tokens are noted in any way of cutting them. -/
theorem Noted.exists_name (hf : u.isFlat) (hk : u.kind = .name) (hi : i + r.length + 1 = stop)
    (h : ∀ words, ∃ segment cs, Noted words stop r places segment cs) :
    ∀ words, ∃ segment cs, Noted words stop (u :: r) (places ++ [i]) segment cs := by
  intro words
  obtain ⟨segment, cs, hn⟩ := h words
  by_cases hu : u.StartsClause words
  · exact ⟨_, _, .start hf hu hi hn⟩
  · exact ⟨_, _, .name hf hk hu hi hn⟩

/-- The starts that the reader finds at the places. -/
theorem Noted.starts_cons {rest : List Item}
    (h : Noted words stop r places segment cs) (hi : i + 1 + r.length + 1 = stop) :
    places.filterMap (start? i (.token u :: (r.map .token ++ rest)) words) =
      places.filterMap (start? (i + 1) (r.map .token ++ rest) words) := by
  refine List.filterMap_congr fun q hq => start?_cons ?_
  have := h.place_bounds q hq
  omega

theorem Noted.lt_starts (after : List Item)
    (h : Noted words stop r places segment cs) (hi : i + r.length + 1 = stop) :
    ∀ s ∈ places.filterMap (start? i after words), i < s.1 := by
  intro s hs
  obtain ⟨q, hq, hs⟩ := List.mem_filterMap.1 hs
  have := h.place_bounds q hq
  rw [start?_place hs]
  omega

theorem start?_self : start? i (.token u :: after) words (i + 1) =
      (u.text.filter words.contains).map fun w => (i + 1, w) := by
  simp [start?]

theorem filter_text_eq_none (hk : u.kind = .name) (hu : ¬ u.StartsClause words) :
    u.text.filter words.contains = none := by
  cases hw : u.text with
  | none => rfl
  | some w =>
    have hm : w ∉ words := fun hm => hu ⟨hk, w, hm, hw⟩
    simp [hm]

/-- **The reader cuts at the words.**  Between the places that it computes lie the first segment and
the later clauses. -/
theorem spans_noted {rest : List Item}
    (h : Noted words stop r places segment cs) (hi : i + r.length + 1 = stop) :
    spans i (r.map .token ++ rest) word stop
        (places.filterMap (start? i (r.map .token ++ rest) words)) =
      (word, segment.map .token) :: cs.map fun c => (c.1.text.getD [], c.2.map .token) := by
  induction h generalizing i word with
  | nil =>
    have hb : between i rest i stop = [] := by simp [between, ← hi]
    simp [spans, hb]
  | @start u r segment j places cs hf hu hj hr ih =>
    simp only [List.length_cons] at hi
    obtain rfl : j = i + 1 := by omega
    obtain ⟨hk, w, hw, ht⟩ := hu
    have hlt := hr.lt_starts (i := i + 1) (r.map .token ++ rest) (by omega)
    rw [List.map_cons, List.cons_append, List.filterMap_append, hr.starts_cons (by omega)]
    simp only [List.filterMap_cons, start?_self, ht, List.filterMap_nil]
    simp only [Option.filter_some, List.contains_iff_mem, hw, if_true, Option.map_some]
    rw [spans_start hlt, ih (by omega)]
    simp [ht]
  | @name u r segment j places cs hf hk hu hj hr ih =>
    simp only [List.length_cons] at hi
    obtain rfl : j = i + 1 := by omega
    have hlt := hr.lt_starts (i := i + 1) (r.map .token ++ rest) (by omega)
    rw [List.map_cons, List.cons_append, List.filterMap_append, hr.starts_cons (by omega)]
    simp only [List.filterMap_cons, start?_self, filter_text_eq_none hk hu, Option.map_none,
      List.filterMap_nil, List.append_nil]
    rw [spans_cons hlt (by omega), ih (by omega)]
    simp
  | @flat u r segment places cs hf hk hr ih =>
    simp only [List.length_cons] at hi
    have hlt := hr.lt_starts (i := i + 1) (r.map .token ++ rest) (by omega)
    rw [List.map_cons, List.cons_append, hr.starts_cons (by omega), spans_cons hlt (by omega),
      ih (by omega)]
    simp
  | @group o c inside r segment places cs ho hc hb hr ih =>
    simp only [List.length_cons, List.length_append] at hi
    -- no place lies inside the group, so it goes to the first segment as a whole
    have hfront : ((o :: (inside ++ c :: r)).map Item.token ++ rest) =
        (o :: (inside ++ [c])).map .token ++ (r.map .token ++ rest) := by simp
    have hlen : ((o :: (inside ++ [c])).map Item.token).length = inside.length + 2 := by simp
    have hlt := hr.lt_starts (i := i + (inside.length + 2)) (r.map .token ++ rest)
      (by omega)
    have hstarts : places.filterMap (start? i ((o :: (inside ++ [c])).map .token ++
          (r.map .token ++ rest)) words) =
        places.filterMap (start? (i + (inside.length + 2)) (r.map .token ++ rest) words) := by
      refine List.filterMap_congr fun q hq => ?_
      have := hr.place_bounds q hq
      rw [start?_append _ (by omega), hlen]
    rw [hfront, hstarts, spans_append _ (by rwa [hlen]) (by omega), hlen, ih (by omega)]
    simp

/-! ### Places behind the closer -/

theorem Noted.segments_balanced (h : Noted words stop r places segment cs) :
    Balanced segment ∧ ∀ c ∈ cs, Balanced c.2 := by
  induction h with
  | nil => exact ⟨.nil, by simp⟩
  | start _ _ _ _ ih => exact ⟨.nil, List.forall_mem_cons.2 ih⟩
  | name hf _ _ _ _ ih | flat hf _ _ ih => exact ⟨.flat hf ih.1, ih.2⟩
  | group ho hc hb _ ih => exact ⟨.group ho hc hb ih.1, ih.2⟩

/-- Where the clauses end matters for the last one only. -/
theorem spans_last (i : Nat) (after : List Item) (word : Text) (starts : List (Nat × Text)) :
    ∃ init w s, (s = i ∨ ∃ x ∈ starts, x.1 = s) ∧
      ∀ stop, spans i after word stop starts = init ++ [(w, between i after s stop)] := by
  cases starts with
  | nil => exact ⟨[], word, i, .inl rfl, fun _ => rfl⟩
  | cons x rest => exact ⟨_, x.2, x.1, .inr ⟨x, by simp, rfl⟩, fun _ => rfl⟩

theorem between_extend {s stop : Nat} (hs : i ≤ s) (h : s < stop) (hq : stop ≤ q) :
    between i after s q =
      between i after s stop ++ (after.drop (stop - i - 1)).take (q - stop) := by
  obtain ⟨m, rfl⟩ := Nat.exists_eq_add_of_lt h
  obtain ⟨k, rfl⟩ := Nat.exists_eq_add_of_le hs
  obtain ⟨l, rfl⟩ := Nat.exists_eq_add_of_le hq
  simp only [between]
  rw [show i + k + m + 1 + l - (i + k) - 1 = m + l by omega,
    show i + k + m + 1 - (i + k) - 1 = m by omega, show i + k - i = k by omega,
    show i + k + m + 1 - i - 1 = k + m by omega,
    show i + k + m + 1 + l - (i + k + m + 1) = l by omega, List.take_add, List.drop_drop]

/-- If the clauses reach behind the closer, the last of them has a closer too many. -/
theorem spans_beyond {c : Token} {done : List Item}
    (h : Noted words stop r places segment cs) (hi : i + r.length + 1 = stop) (hq : stop < q) :
    ∃ w b rest, Balanced b ∧ (w, b.map .token ++ .token c :: rest) ∈
      spans i (r.map .token ++ .token c :: done) word q
        (places.filterMap (start? i (r.map .token ++ .token c :: done) words)) := by
  set after := r.map Item.token ++ .token c :: done with hafter
  set starts := places.filterMap (start? i after words) with hstarts
  obtain ⟨init, w, s, hs, hspans⟩ := spans_last i after word starts
  have hbounds : i ≤ s ∧ s < stop := by
    rcases hs with rfl | ⟨x, hx, rfl⟩
    · omega
    · obtain ⟨place, hp, hx⟩ := List.mem_filterMap.1 hx
      have := h.place_bounds place hp
      rw [start?_place hx]
      omega
  -- up to the closer, the last clause is a segment
  obtain ⟨b, hb, hlast⟩ : ∃ b, Balanced b ∧ between i after s stop = b.map .token := by
    have hn : spans i (r.map .token ++ .token c :: done) word stop _ = _ := spans_noted h hi
    rw [← hafter, ← hstarts, hspans stop] at hn
    have hmem : (w, between i after s stop) ∈
        (word, segment.map Item.token) :: cs.map fun c => (c.1.text.getD [], c.2.map .token) := by
      rw [← hn]
      simp
    rcases List.mem_cons.1 hmem with hmem | hmem
    · exact ⟨segment, h.segments_balanced.1, (Prod.mk.inj hmem).2⟩
    · obtain ⟨x, hx, hmem⟩ := List.mem_map.1 hmem
      exact ⟨x.2, h.segments_balanced.2 x hx, (Prod.mk.inj hmem).2.symm⟩
  have hdrop : after.drop (stop - i - 1) = .token c :: done := by
    rw [hafter, show stop - i - 1 = (r.map Item.token).length by simp; omega]
    exact List.drop_left
  obtain ⟨k, rfl⟩ := Nat.exists_eq_add_of_lt hq
  refine ⟨w, b, done.take k, hb, ?_⟩
  rw [hspans, between_extend hbounds.1 hbounds.2 (by omega), hlast, hdrop,
    show stop + k + 1 - stop = k + 1 by omega, List.take_succ_cons]
  simp

end FilterShell.Bracket
