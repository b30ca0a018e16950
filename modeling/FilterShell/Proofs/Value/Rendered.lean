import FilterShell.Proofs.Value.Content
import FilterShell.Proofs.Value.Data
import FilterShell.Value.Text

/-!
# The text of drained values

`Datum.Rendered` says which texts are written for what a value holds: the entries of an object in some order in
which the keys that are texts increase.  The text of a drained value is such a text, and neither writing it nor
reading it to the end changes the store (`Value.Drained.renders`).
-/

namespace FilterShell

variable {pairs : List (Value × Value)} {g : Value → Text} {items : List Value}

open Reading

namespace Datum

/-- The text is written for the datum, which has no not-a-number in it. -/
inductive Rendered : Datum → Text → Prop
  | exception (e : Exception) : Rendered (.exception e) e.shown
  | null : Rendered .null "null"
  | bool (b : Bool) : Rendered (.bool b) (Value.boolText b)
  | number {d : Decimal} (h : d.isNaN = false) : Rendered (.number d) d.text
  | text (t : Text) : Rendered (.text t) t.literal
  /-- The rows are the items and their texts. -/
  | list {items : List Datum} {rows : List (Datum × Text)} (hitems : rows.map (·.1) = items)
      (h : ∀ r ∈ rows, Rendered r.1 r.2) :
      Rendered (.list items) (Plain.bracketed "[" "]" (rows.map (·.2)))
  /-- The rows are the entries, and the texts of their keys and values. -/
  | object {entries : List (Datum × Datum)} {rows : List ((Datum × Datum) × (Text × Text))}
      (hperm : (rows.map (·.1)).Perm entries) (hsorted : Increasing (rows.map (·.1)))
      (hkeys : ∀ r ∈ rows, Rendered r.1.1 r.2.1) (hvalues : ∀ r ∈ rows, Rendered r.1.2 r.2.2) :
      Rendered (.object entries) (Plain.bracketed "\x7b" "\x7d"
        (rows.map fun r => r.2.1 ++ Text.ofString ": " ++ r.2.2))

end Datum

variable {s : Store} {home : Nat → Value} {D : Value → Prop} {R : Relations}

/-! ### Containers at their end -/

section Ended

variable {id : Nat} (h : (s.get id).ended = true)

include h

theorem Reading.answers_mapItems {α : Type} {f : Value → Reading α} {g : Value → α}
    (hf : ∀ v ∈ items.take (s.get id).taken, Answers s (f v) (g v)) :
    Answers s (mapItems id items f) ((items.take (s.get id).taken).map g) := by
  have hgo : ∀ n k, (items.take (s.get id).taken).length ≤ n + k →
      Answers s (mapItems.go id items f n k) (((items.take (s.get id).taken).drop k).map g) := by
    intro n
    induction n with
    | zero =>
      intro k hk
      rw [List.drop_eq_nil_of_le (by omega)]
      exact (answers_drain h _).bind rfl
    | succ n ih =>
      intro k hk
      refine (answers_item? h items k).bind ?_
      by_cases hlt : k < (items.take (s.get id).taken).length
      · rw [List.getElem?_eq_getElem hlt, List.drop_eq_getElem_cons hlt]
        exact (hf _ (List.getElem_mem hlt)).bind ((ih (k + 1) (by omega)).bind rfl)
      · rw [List.getElem?_eq_none (by omega), List.drop_eq_nil_of_le (by omega)]
        rfl
  refine hgo items.length 0 ?_
  rw [List.length_take]
  omega

theorem Relations.answers_sizedEntries (pairs : List (Value × Value)) :
    Answers s (R.sizedEntries id pairs) (tableOf pairs (s.get id).entries) :=
  ((answers_takePairs h pairs _).rescue _).bind (answers_entries h pairs)

end Ended

/-- Entries are ordered by their keys and then by their values. -/
theorem Relations.Agrees.lessEntry (h : R.Agrees s D) :
    Sorting.ByKey s (fun p : Value × Value => D p.1 ∧ D p.2) R.lessEntry
      fun p => toLex (Value.pairStanding s p) := by
  rintro ⟨k, v⟩ ⟨k', v'⟩ ⟨hk, hv⟩ ⟨hk', hv'⟩
  have hlt : toLex (Value.pairStanding s (k, v)) < toLex (Value.pairStanding s (k', v')) ↔
      k.standing s < k'.standing s ∨ k.standing s = k'.standing s ∧ v.standing s < v'.standing s :=
    Prod.Lex.toLex_lt_toLex
  refine (h.alike hk hk').cases (fun heq => ?_) fun hne => ?_
  · refine (h.alike hv hv').cases (fun heq' => answers_false ?_) fun hne' => ?_
    · rw [hlt, heq, heq']
      simp
    · refine (h.less hv hv').of_iff ?_
      rw [hlt, heq]
      simp
  · refine (h.less hk hk').of_iff ?_
    rw [hlt]
    simp [hne]

/-- A table in which all keys stand apart is sorted by them. -/
theorem Relations.Agrees.sortedTable (h : R.Agrees s D) {table : List (Value × Value)}
    (hD : ∀ p ∈ table, D p.1 ∧ D p.2) (hnodup : (table.map fun p => p.1.standing s).Nodup) :
    ∃ sorted, Answers s (sortBy R.lessEntry table) sorted ∧ sorted.Perm table ∧
      sorted.Pairwise fun p q => p.1.standing s < q.1.standing s := by
  obtain ⟨sorted, hsort, hperm, hpairs⟩ := sortBy_answers h.lessEntry hD
  refine ⟨sorted, hsort, hperm, ?_⟩
  have hapart := List.pairwise_map.1 ((hperm.map fun p => p.1.standing s).nodup_iff.2 hnodup)
  refine (hpairs.and hapart).imp fun {p q} hpq => ?_
  exact (Prod.Lex.toLex_le_toLex.1 hpq.1).resolve_right fun heq => hpq.2 heq.1

namespace Value

/-- The level below serves for the parts of a value. -/
theorem textTo_eq (n : Nat) : ∃ m below, textTo n = textWith (.upTo m) below ∧ n ≤ m + 1 ∧
    ∀ v : Value, v.depth + 1 ≤ n → below v = textTo (n - 1) v := by
  cases n with
  | zero => exact ⟨0, _, rfl, Nat.zero_le _, fun v hv => absurd hv (Nat.not_succ_le_zero _)⟩
  | succ n => exact ⟨n, _, rfl, Nat.le_refl _, fun v _ => rfl⟩

/-- What a value of the program holds: a text with surrogates is refused where it is pushed, and no exact
number is beyond the limits. -/
inductive Storable : Value → Prop
  | exception (e : Exception) : Storable (.exception e)
  | null : Storable .null
  | bool (b : Bool) : Storable (.bool b)
  | number {id : Nat} {d : Decimal} (h : d.Bounded) : Storable (.number id d)
  | string {id : Nat} {pieces : List Text} (h : ∀ t ∈ pieces, t.isWellFormed) :
      Storable (.string id pieces)
  | array {id : Nat} {items : List Value} (h : ∀ v ∈ items, Storable v) : Storable (.array id items)
  | object {id : Nat} {pairs : List (Value × Value)} (hkeys : ∀ p ∈ pairs, Storable p.1)
      (hvalues : ∀ p ∈ pairs, Storable p.2) : Storable (.object id pairs)

/-- Reading the value to the end gives the datum and writing it the text, at any level that is deep
enough.  A text stands where the value stands. -/
structure Renders (s : Store) (v : Value) (x : Datum) (t : Text) : Prop where
  settles : ∀ n, v.depth ≤ n → Answers s (settleTo n v) x
  writes : ∀ n, v.depth ≤ n → Answers s (textTo n v) t
  rendered : x.Rendered t
  standing : ∀ w, x = .text w → v.standing s = .flat .string w.codes
  storable : v.Storable → x.Storable

/-- There is only one way to sort a table. -/
theorem sorted_unique {P Q : List (Value × Value)} (hperm : P.Perm Q)
    (hP : P.Pairwise fun p q => p.1.standing s < q.1.standing s)
    (hQ : Q.Pairwise fun p q => p.1.standing s < q.1.standing s) : P = Q :=
  hperm.eq_of_pairwise (fun _ _ _ _ hpq hqp => absurd hqp hpq.asymm) hP hQ

/-- The text of an entry. -/
def entryText (g : Value → Text) (p : Value × Value) : Text := g p.1 ++ Text.ofString ": " ++ g p.2

/-- Writing a value gives the text, at any level that is deep enough. -/
def Writes (s : Store) (v : Value) (t : Text) : Prop := ∀ n, v.depth ≤ n → Answers s (textTo n v) t

theorem writes_array {id : Nat} (hend : (s.get id).ended = true)
    (h : ∀ v ∈ items.take (s.get id).taken, Writes s v (g v)) :
    Writes s (.array id items) (Plain.bracketed "[" "]" ((items.take (s.get id).taken).map g)) := by
  intro n hn
  obtain ⟨m, below, hlevel, -, hbelow⟩ := textTo_eq n
  rw [hlevel]
  refine (answers_mapItems hend fun v hv => ?_).bind rfl
  have hdepth : v.depth + 1 ≤ n := (depth_item (List.mem_of_mem_take hv)).trans hn
  rw [hbelow v hdepth]
  exact h v hv _ (by omega)

/-- The table of a drained object is sorted in one way. -/
theorem Drained.sortedTable {id : Nat}
    (h : Drained s home (.object id pairs)) : ∃ sorted : List (Value × Value),
      sorted.Perm (Relations.tableOf pairs (s.get id).entries) ∧
      (sorted.Pairwise fun p q => p.1.standing s < q.1.standing s) ∧
      ∀ m, depthPairs pairs ≤ m + 1 → Answers s (sortBy (Relations.upTo m).lessEntry
        (Relations.tableOf pairs (s.get id).entries)) sorted := by
  obtain ⟨-, -, htable⟩ := h.settledTo
  have hsort : ∀ m, depthPairs pairs ≤ m + 1 → ∃ sorted,
      Answers s (sortBy (Relations.upTo m).lessEntry (Relations.tableOf pairs (s.get id).entries)) sorted ∧
        sorted.Perm (Relations.tableOf pairs (s.get id).entries) ∧
        sorted.Pairwise fun p q => p.1.standing s < q.1.standing s := by
    intro m hm
    have hagrees : (Relations.upTo m).Agrees s (SettledTo s home (m + 1)) := Relations.upTo_agrees m
    refine hagrees.sortedTable (fun p hp => ?_) htable.nodup
    exact ⟨(htable.mem hp).1.mono hm, (htable.mem hp).2.mono hm⟩
  obtain ⟨sorted, -, hperm, hpairs⟩ := hsort _ (Nat.le_succ _)
  refine ⟨sorted, hperm, hpairs, fun m hm => ?_⟩
  obtain ⟨sorted', hsort', hperm', hpairs'⟩ := hsort m hm
  rwa [← sorted_unique (hperm'.trans hperm.symm) hpairs' hpairs]

/-- Entries are written in the order of their keys. -/
theorem writes_object {id : Nat} {sorted : List (Value × Value)}
    (hend : (s.get id).ended = true) (hperm : sorted.Perm (Relations.tableOf pairs (s.get id).entries))
    (hsort : ∀ m, depthPairs pairs ≤ m + 1 → Answers s (sortBy (Relations.upTo m).lessEntry
      (Relations.tableOf pairs (s.get id).entries)) sorted)
    (h : ∀ p ∈ sorted, Writes s p.1 (g p.1) ∧ Writes s p.2 (g p.2)) :
    Writes s (.object id pairs) (Plain.bracketed "\x7b" "\x7d" (sorted.map (entryText g))) := by
  intro n hn
  have hn : depthPairs pairs ≤ n := hn
  obtain ⟨m, below, hlevel, hm, hbelow⟩ := textTo_eq n
  rw [hlevel]
  refine (Relations.answers_sizedEntries hend pairs).bind ((hsort m (hn.trans hm)).bind
    ((answers_mapM (g := entryText g) fun p hp => ?_).bind rfl))
  obtain ⟨hk, hv⟩ := depth_table (hperm.mem_iff.1 hp)
  have hkey : Answers s (below p.1) (g p.1) := by
    rw [hbelow _ (hk.trans hn)]
    exact (h p hp).1 _ (by omega)
  have hvalue : Answers s (below p.2) (g p.2) := by
    rw [hbelow _ (hv.trans hn)]
    exact (h p hp).2 _ (by omega)
  exact hkey.bind (hvalue.bind rfl)

variable {v : Value}

theorem renders_flat {x : Datum} {t : Text} (hx : x.Rendered t)
    (hsettle : ∀ R below, Answers s (settleWith R below v) x)
    (htext : ∀ R below, Answers s (textWith R below v) t)
    (hstanding : ∀ w, x = .text w → v.standing s = .flat .string w.codes)
    (hstorable : v.Storable → x.Storable) : Renders s v x t where
  settles n _ := by
    obtain ⟨m, below, hlevel, -⟩ := settleTo_eq n
    rw [hlevel]
    exact hsettle _ _
  writes n _ := by
    obtain ⟨m, below, hlevel, -⟩ := textTo_eq n
    rw [hlevel]
    exact htext _ _
  rendered := hx
  standing := hstanding
  storable := hstorable

/-- An array is rendered item by item. -/
theorem renders_array {id : Nat} {f : Value → Datum} (hend : (s.get id).ended = true)
    (h : ∀ v ∈ items.take (s.get id).taken, Renders s v (f v) (g v)) :
    Renders s (.array id items) (.list ((items.take (s.get id).taken).map f))
      (Plain.bracketed "[" "]" ((items.take (s.get id).taken).map g)) where
  settles n hn := by
    obtain ⟨m, below, hlevel, hbelow⟩ := settleTo_eq n
    rw [hlevel]
    refine (answers_allItems hend items).bind ((answers_mapM fun v hv => ?_).bind rfl)
    have hdepth : v.depth + 1 ≤ n := (depth_item (List.mem_of_mem_take hv)).trans hn
    rw [hbelow v hdepth]
    exact (h v hv).settles _ (by omega)
  writes := writes_array hend fun v hv => (h v hv).writes
  rendered := by
    set vs := items.take (s.get id).taken
    have hitems : (vs.map fun v => (f v, g v)).map (·.1) = vs.map f := by
      rw [List.map_map]
      rfl
    have htexts : (vs.map fun v => (f v, g v)).map (·.2) = vs.map g := by
      rw [List.map_map]
      rfl
    rw [← htexts]
    exact .list hitems (List.forall_mem_map.2 fun v hv => (h v hv).rendered)
  standing := by
    intro w hw
    cases hw
  storable hv := by
    cases hv with
    | array hitems =>
      exact .list (List.forall_mem_map.2 fun v hv =>
        (h v hv).storable (hitems v (List.mem_of_mem_take hv)))

theorem renders_object {id : Nat} {f : Value → Datum} (h : Drained s home (.object id pairs))
    (hparts : ∀ p ∈ Relations.tableOf pairs (s.get id).entries,
      Renders s p.1 (f p.1) (g p.1) ∧ Renders s p.2 (f p.2) (g p.2)) :
    ∃ t, Renders s (.object id pairs)
      (.object ((Relations.tableOf pairs (s.get id).entries).map fun p => (f p.1, f p.2))) t := by
  have hend : (s.get id).ended = true := h.settledTo.1
  obtain ⟨sorted, hperm, hpairs, hsort⟩ := h.sortedTable
  have hrow : ∀ p ∈ sorted, Renders s p.1 (f p.1) (g p.1) ∧ Renders s p.2 (f p.2) (g p.2) :=
    fun p hp => hparts p (hperm.mem_iff.1 hp)
  refine ⟨Plain.bracketed "\x7b" "\x7d" (sorted.map (entryText g)), ?_, ?_, ?_, ?_, ?_⟩
  · intro n hn
    obtain ⟨m, below, hlevel, hbelow⟩ := settleTo_eq n
    rw [hlevel]
    refine (Relations.answers_entries hend pairs).bind ((answers_mapM fun p hp => ?_).bind rfl)
    obtain ⟨hk, hv⟩ := depth_table hp
    have hn : depthPairs pairs ≤ n := hn
    have hkey : Answers s (below p.1) (f p.1) := by
      rw [hbelow _ (hk.trans hn)]
      exact (hparts p hp).1.settles _ (by omega)
    have hvalue : Answers s (below p.2) (f p.2) := by
      rw [hbelow _ (hv.trans hn)]
      exact (hparts p hp).2.settles _ (by omega)
    exact hkey.bind (hvalue.bind rfl)
  · exact writes_object hend hperm hsort fun p hp => ⟨(hrow p hp).1.writes, (hrow p hp).2.writes⟩
  · set row := fun p : Value × Value => ((f p.1, f p.2), (g p.1, g p.2))
    have hentries : (sorted.map row).map (·.1) = sorted.map fun p => (f p.1, f p.2) := by
      rw [List.map_map]
      rfl
    have htexts : (sorted.map row).map (fun r => r.2.1 ++ Text.ofString ": " ++ r.2.2) =
        sorted.map (entryText g) := by
      rw [List.map_map]
      rfl
    rw [← htexts]
    refine .object (hentries ▸ hperm.map _) ?_ (List.forall_mem_map.2 fun p hp => (hrow p hp).1.rendered)
      (List.forall_mem_map.2 fun p hp => (hrow p hp).2.rendered)
    rw [hentries]
    refine List.pairwise_map.2 (hpairs.imp_of_mem fun {p q} hp hq hlt k l hk hl => ?_)
    rw [(hrow p hp).1.standing k hk, (hrow q hq).1.standing l hl] at hlt
    rw [Text.lt_eq]
    exact decide_eq_true ((Standing.flat_lt.1 hlt).resolve_right fun h => lt_irrefl _ h.2)
  · intro w hw
    cases hw
  · intro hv
    cases hv with
    | object hkeys hvalues =>
      refine .object (List.forall_mem_map.2 fun p hp => ?_) (List.forall_mem_map.2 fun p hp => ?_)
      · obtain ⟨⟨w, hkey⟩, -⟩ := pairs_table hp
        exact (hparts p hp).1.storable (hkeys (p.1, w) hkey)
      · obtain ⟨-, k, hvalue⟩ := pairs_table hp
        exact (hparts p hp).2.storable (hvalues (k, p.2) hvalue)

/-- **The text of a drained value** is one that is written for what the value holds. -/
theorem Drained.renders (h : Drained s home v) : ∃ x t, v.Renders s x t := by
  induction h with
  | exception e =>
    exact ⟨_, _, renders_flat (.exception e) (fun _ _ => rfl) (fun _ _ => rfl) (by simp)
      fun _ => .exception e⟩
  | null =>
    exact ⟨_, _, renders_flat .null (fun _ _ => rfl) (fun _ _ => rfl) (by simp) fun _ => .null⟩
  | bool b =>
    exact ⟨_, _, renders_flat (.bool b) (fun _ _ => rfl) (fun _ _ => rfl) (by simp) fun _ => .bool b⟩
  | number h =>
    refine ⟨_, _, renders_flat (.number h) (fun _ _ => rfl) (fun _ _ => rfl) (by simp) fun hv => ?_⟩
    cases hv with
    | number hbound => exact .number hbound
  | @string id pieces hend _ =>
    have hwhole := answers_wholeText hend pieces
    refine ⟨_, _, renders_flat (.text _) (fun _ _ => hwhole.bind rfl) (fun _ _ => hwhole.bind rfl)
      ?_ fun hv => ?_⟩
    · rintro w ⟨⟩
      rfl
    · cases hv with
      | string hpieces =>
        refine .text (List.all_eq_true.2 fun r hr => ?_)
        obtain ⟨t, ht, hr⟩ := List.mem_flatten.1 hr
        exact List.all_eq_true.1 (hpieces t (List.mem_of_mem_take ht)) r hr
  | @array id items hend _ _ ih =>
    choose! f g hparts using ih
    exact ⟨_, _, renders_array hend hparts⟩
  | @object id pairs hend hhome hentries hkeys hvalues hapart ihk ihv =>
    have hparts : ∀ w, (∃ p ∈ Relations.tableOf pairs (s.get id).entries, p.1 = w ∨ p.2 = w) →
        ∃ x t, w.Renders s x t := by
      rintro w ⟨p, hp, rfl | rfl⟩
      · exact ihk p hp
      · exact ihv p hp
    choose! f g hparts using hparts
    exact ⟨_, renders_object (.object hend hhome hentries hkeys hvalues hapart) fun p hp =>
      ⟨hparts _ ⟨p, hp, .inl rfl⟩, hparts _ ⟨p, hp, .inr rfl⟩⟩⟩

end Value

end FilterShell
