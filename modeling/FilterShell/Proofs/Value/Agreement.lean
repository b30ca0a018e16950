import FilterShell.Proofs.Value.Answers
import FilterShell.Proofs.Value.Standing

/-!
# Relations that agree with the standings

Relations *agree* with a store on a set of values if, for these, they answer by the standings: hashes, equality
and order (`Relations.Agrees`).  Then everything that is built from the relations does: arrays item by item,
sorted lists of keys, searches in a table, sets of entries, and the values of keys in turn.
-/

namespace FilterShell.Relations

variable {id' : Nat} {P pairs' : List (Value × Value)} {p : Value × Value} {key : Value}

open Reading

variable {s : Store} {D : Value → Prop} {R : Relations}

/-- The relations answer by the standings of the values in `D`; and of these, two with one identity are
one. -/
structure Agrees (s : Store) (D : Value → Prop) (R : Relations) : Prop where
  hash  : ∀ ⦃a⦄, D a → Answers s (R.hash a) (a.standing s).hash
  equal : ∀ ⦃a b⦄, D a → D b → Answers s (R.equal a b) (decide (a.standing s = b.standing s))
  less  : ∀ ⦃a b⦄, D a → D b → Answers s (R.less a b) (decide (a.standing s < b.standing s))
  same  : ∀ ⦃a b⦄, D a → D b → a.same b → a = b

namespace Agrees

variable (h : R.Agrees s D)

include h

theorem mono {D' : Value → Prop} (hD : ∀ v, D' v → D v) : R.Agrees s D' where
  hash _ ha       := h.hash (hD _ ha)
  equal _ _ ha hb := h.equal (hD _ ha) (hD _ hb)
  less _ _ ha hb  := h.less (hD _ ha) (hD _ hb)
  same _ _ ha hb  := h.same (hD _ ha) (hD _ hb)

theorem alike {a b : Value} (ha : D a) (hb : D b) :
    Answers s (R.alike a b) (decide (a.standing s = b.standing s)) := by
  unfold Relations.alike
  by_cases hab : a.same b
  · obtain rfl := h.same ha hb hab
    rw [if_pos hab, decide_eq_true rfl]
    rfl
  · rw [if_neg hab]
    exact h.equal ha hb

theorem greater {a b : Value} (ha : D a) (hb : D b) :
    Answers s (R.greater a b) (decide (b.standing s < a.standing s)) := by
  refine (h.less ha hb).cases (fun hlt => answers_false hlt.asymm) fun hlt => ?_
  refine (h.equal ha hb).cases (fun heq => answers_false heq.not_gt) fun hne => answers_true ?_
  exact lt_of_le_of_ne (not_lt.1 hlt) (Ne.symm hne)

/-! ### Lists -/

theorem equalItems : ∀ {xs ys : List Value}, (∀ x ∈ xs, D x) → (∀ y ∈ ys, D y) →
    Answers s (R.equalItems xs ys) (decide (xs.map (·.standing s) = ys.map (·.standing s)))
  | [], [], _, _ | [], _ :: _, _, _ | _ :: _, [], _, _ => rfl
  | x :: r, y :: t, hx, hy => by
    obtain ⟨hx, hr⟩ := List.forall_mem_cons.1 hx
    obtain ⟨hy, ht⟩ := List.forall_mem_cons.1 hy
    refine (h.equal hx hy).cases (fun heq => ?_) fun hne => answers_false (by simp [hne])
    exact (equalItems hr ht).of_iff (by simp [heq])

theorem lessItems : ∀ {xs ys : List Value}, (∀ x ∈ xs, D x) → (∀ y ∈ ys, D y) →
    Answers s (R.lessItems xs ys) (decide (xs.map (·.standing s) < ys.map (·.standing s)))
  | [], [], _, _ | [], _ :: _, _, _ | _ :: _, [], _, _ => rfl
  | x :: r, y :: t, hx, hy => by
    obtain ⟨hx, hr⟩ := List.forall_mem_cons.1 hx
    obtain ⟨hy, ht⟩ := List.forall_mem_cons.1 hy
    have hcons : ((x :: r).map (·.standing s) < (y :: t).map (·.standing s)) ↔
        x.standing s < y.standing s ∨ x.standing s = y.standing s ∧
          r.map (·.standing s) < t.map (·.standing s) := List.cons_lt_cons_iff
    refine (h.less hx hy).cases (fun hlt => answers_true (hcons.2 (.inl hlt))) fun hlt => ?_
    refine (h.greater hx hy).cases (fun hgt => answers_false ?_) fun hgt => ?_
    · rw [hcons]
      exact fun hor => hor.elim hlt fun heq => hgt.ne' heq.1
    · refine (lessItems hr ht).of_iff ?_
      have heq := le_antisymm (not_lt.1 hgt) (not_lt.1 hlt)
      rw [hcons]
      simp [heq]

/-- The first difference decides both ways; if there is none, the lengths do. -/
theorem difference? : ∀ {xs ys : List Value}, (∀ x ∈ xs, D x) → (∀ y ∈ ys, D y) →
    ∃ d, Answers s (R.difference? xs ys) d ∧
      (∀ x y, d = some (x, y) → D x ∧ D y ∧
        (xs.map (·.standing s) < ys.map (·.standing s) ↔ x.standing s < y.standing s) ∧
        (ys.map (·.standing s) < xs.map (·.standing s) ↔ y.standing s < x.standing s)) ∧
      (d = none → (xs.map (·.standing s) < ys.map (·.standing s) ↔ xs.length < ys.length) ∧
        (ys.map (·.standing s) < xs.map (·.standing s) ↔ ys.length < xs.length))
  | [], [], _, _ | [], _ :: _, _, _ | _ :: _, [], _, _ => ⟨none, rfl, nofun, by simp⟩
  | x :: r, y :: t, hx, hy => by
    obtain ⟨hx, hr⟩ := List.forall_mem_cons.1 hx
    obtain ⟨hy, ht⟩ := List.forall_mem_cons.1 hy
    obtain ⟨d, hd, hsome, hnone⟩ := difference? hr ht
    by_cases heq : x.standing s = y.standing s
    · refine ⟨d, (h.alike hx hy).cases (fun _ => hd) (absurd heq), ?_, ?_⟩
      · simpa [List.cons_lt_cons_iff, heq] using hsome
      · simpa [List.cons_lt_cons_iff, heq] using hnone
    · refine ⟨some (x, y), (h.alike hx hy).cases (absurd · heq) fun _ => rfl, ?_, nofun⟩
      rintro _ _ ⟨⟩
      simp [List.cons_lt_cons_iff, heq, Ne.symm heq, hx, hy]

theorem lessKeys {xs ys : List Value} (hx : ∀ x ∈ xs, D x) (hy : ∀ y ∈ ys, D y) :
    Answers s (R.lessKeys xs ys) (decide (xs.map (·.standing s) < ys.map (·.standing s))) := by
  obtain ⟨d, hd, hsome, hnone⟩ := h.difference? hx hy
  refine hd.bind ?_
  rcases d with _ | ⟨x, y⟩
  · rw [decide_eq_decide.2 (hnone rfl).1]
    rfl
  · obtain ⟨hDx, hDy, hless, -⟩ := hsome x y rfl
    exact (h.less hDx hDy).of_iff hless.symm

theorem greaterKeys {xs ys : List Value} (hx : ∀ x ∈ xs, D x) (hy : ∀ y ∈ ys, D y) :
    Answers s (R.greaterKeys xs ys) (decide (ys.map (·.standing s) < xs.map (·.standing s))) := by
  obtain ⟨d, hd, hsome, hnone⟩ := h.difference? hx hy
  refine hd.bind ?_
  rcases d with _ | ⟨x, y⟩
  · rw [decide_eq_decide.2 (hnone rfl).2]
    rfl
  · obtain ⟨hDx, hDy, -, hgreater⟩ := hsome x y rfl
    exact (h.greater hDx hDy).of_iff hgreater.symm

end Agrees

/-! ### Tables -/

section Ended

variable {id : Nat} (h : (s.get id).ended = true) (pairs : List (Value × Value))

include h

theorem answers_takePairs (n : Nat) : Answers s (R.takePairs id pairs (n + 1)) () :=
  ((answers_take? h _).bind rfl : Answers s (R.takePair? id pairs) none).bind rfl

theorem answers_entries : Answers s (R.entries id pairs) (tableOf pairs (s.get id).entries) :=
  (answers_takePairs h pairs _).bind rfl

theorem answers_mapKeys {α : Type} {f : Value → Reading α} {g : Value → α}
    (hf : ∀ p ∈ tableOf pairs (s.get id).entries, Answers s (f p.1) (g p.1)) :
    Answers s (R.mapKeys id pairs f) ((tableOf pairs (s.get id).entries).map fun p => g p.1) := by
  have htaken : Answers s (taken id pairs) (tableOf pairs (s.get id).entries) := rfl
  have hkeys : Answers s (R.endKeys id pairs (pairs.length + 1)) () := by
    have hprogress : Answers s (progress id) (s.get id) := rfl
    have hpair : Answers s (R.takePair? id pairs) none := (answers_take? h _).bind rfl
    exact hprogress.bind (hpair.bind rfl)
  exact htaken.bind ((answers_mapM hf).bind (hkeys.bind rfl))

theorem answers_keys :
    Answers s (R.keys id pairs) ((tableOf pairs (s.get id).entries).map Prod.fst) :=
  ((answers_takePairs h pairs _).rescue _).bind
    (answers_mapKeys (g := fun k => k) h pairs fun p _ => answers_return p.1)

end Ended

/-- A table is in order: every entry points to a key and a value in `D` and holds the hash of the key,
and no two keys stand at the same place. -/
structure Tabled (s : Store) (D : Value → Prop) (pairs : List (Value × Value))
    (entries : List Entry) : Prop where
  entry : ∀ e ∈ entries, ∃ k v, e.pick pairs = some (k, v) ∧ D k ∧ D v ∧
    e.hash = (k.standing s).hash
  nodup : ((tableOf pairs entries).map fun p => p.1.standing s).Nodup

/-- Every entry points to a key in `D` and holds its hash. -/
def Indexed (s : Store) (D : Value → Prop) (pairs : List (Value × Value))
    (entries : List Entry) : Prop :=
  ∀ e ∈ entries, ∃ k v, e.pick pairs = some (k, v) ∧ D k ∧ e.hash = (k.standing s).hash

theorem tableOf_cons {pairs : List (Value × Value)} {e : Entry} {r : List Entry}
    (h : e.pick pairs = some p) :
    tableOf pairs (e :: r) = p :: tableOf pairs r := List.filterMap_cons_some h

namespace Tabled

variable {pairs : List (Value × Value)} {entries : List Entry}

theorem mem (h : Tabled s D pairs entries) (hp : p ∈ tableOf pairs entries) : D p.1 ∧ D p.2 := by
  obtain ⟨e, he, hpick⟩ := List.mem_filterMap.1 hp
  obtain ⟨k, v, hpick', hk, hv, -⟩ := h.entry e he
  cases hpick.symm.trans hpick'
  exact ⟨hk, hv⟩

theorem indexed (h : Tabled s D pairs entries) : Indexed s D pairs entries := by
  intro e he
  obtain ⟨k, v, hpick, hk, -, hhash⟩ := h.entry e he
  exact ⟨k, v, hpick, hk, hhash⟩

end Tabled

/-- The entries of a table with their hashes. -/
def hashedOf (s : Store) (P : List (Value × Value)) : Hashed :=
  P.map fun p => (((p.1.standing s).hash, (p.2.standing s).hash), p)

theorem hashedOf_concat (P : List (Value × Value)) (p : Value × Value) : hashedOf s (P ++ [p]) =
    hashedOf s P ++ [(((p.1.standing s).hash, (p.2.standing s).hash), p)] := List.map_append

theorem hashedOf_congr {s' : Store}
    (h : ∀ p ∈ P, Value.pairStanding s p = Value.pairStanding s' p) : hashedOf s P = hashedOf s' P := by
  refine List.map_congr_left fun p hp => ?_
  obtain ⟨hkey, hvalue⟩ := Prod.mk.inj (h p hp)
  rw [hkey, hvalue]

theorem forall_hashedOf {C : Value → Prop} :
    (∀ e ∈ hashedOf s P, C e.2.1) ↔ ∀ p ∈ P, C p.1 := List.forall_mem_map

/-- Adds an entry to a set, if it is not there. -/
def addEntry (R : Relations) (set : Hashed) (p : Value × Value) : Reading Hashed := do
  let h := (← R.hash p.1, ← R.hash p.2)
  if ← R.hasEntry h p.1 p.2 set then return set
  return set ++ [(h, p)]

theorem hashed_eq_foldlM (P : List (Value × Value)) : R.hashed P = P.foldlM R.addEntry [] := rfl

theorem addEntry_gives {s' : Store} {set : Hashed} {x y : Nat}
    (hkey : Answers s (R.hash p.1) x) (hvalue : Gives s (R.hash p.2) y s')
    (hnew : Answers s' (R.hasEntry (x, y) p.1 p.2 set) false) :
    Gives s (R.addEntry set p) (set ++ [((x, y), p)]) s' :=
  Gives.bind hkey (Gives.bind hvalue (Gives.bind hnew rfl))

theorem standing_ne_of_nodup {done rest : List (Value × Value)} {q : Value × Value}
    (h : ((done ++ p :: rest).map fun p => p.1.standing s).Nodup) (hq : q ∈ done) :
    q.1.standing s ≠ p.1.standing s := by
  rw [List.map_append, List.nodup_append] at h
  exact h.2.2 _ (List.mem_map_of_mem hq) _ List.mem_cons_self

namespace Agrees

variable (h : R.Agrees s D)

include h

/-- A key is found where a key of the same standing is. -/
theorem find? {pairs : List (Value × Value)} (hkey : D key) :
    ∀ {entries : List Entry}, Indexed s D pairs entries →
    Answers s (R.find? pairs (key.standing s).hash key entries)
      ((tableOf pairs entries).findIdx? fun p => p.1.standing s = key.standing s)
  | [], _ => rfl
  | e :: r, he => by
    obtain ⟨⟨k, v, hpick, hk, hhash⟩, hr⟩ := List.forall_mem_cons.1 he
    obtain ⟨⟨w, hw⟩, -⟩ := Entry.pick_eq hpick
    rw [tableOf_cons hpick, List.findIdx?_cons, Relations.find?, hw]
    have hnext : k.standing s ≠ key.standing s → Answers s
        (do return (← R.find? pairs (key.standing s).hash key r).map (· + 1))
        (if decide (k.standing s = key.standing s) then some 0
          else ((tableOf pairs r).findIdx? fun p => p.1.standing s = key.standing s).map (· + 1)) :=
      fun hne => by
        rw [if_neg (by simpa using hne)]
        exact (find? hkey hr).bind rfl
    dsimp only
    by_cases hsame : e.hash = (key.standing s).hash
    · rw [if_pos hsame]
      refine (h.alike hk hkey).cases (fun heq => ?_) hnext
      rw [decide_eq_true heq]
      rfl
    -- keys of one standing have one hash, so an entry that is passed over has another key
    · rw [if_neg hsame]
      exact hnext fun heq => hsame (hhash.trans (congrArg Standing.hash heq))

/-- The value of a key is the one beside a key of the same standing, if there is one. -/
theorem lookup? {id : Nat} {pairs : List (Value × Value)} (hend : (s.get id).ended = true)
    (ht : Indexed s D pairs (s.get id).entries) (hkey : D key) : Answers s (R.lookup? id pairs key)
      (((tableOf pairs (s.get id).entries).find? fun p =>
        p.1.standing s = key.standing s).map Prod.snd) := by
  have hprogress : Answers s (progress id) (s.get id) := rfl
  have htaken : Answers s (taken id pairs) (tableOf pairs (s.get id).entries) := rfl
  refine (answers_takePairs hend pairs _).bind ((h.hash hkey).bind (hprogress.bind ?_))
  refine (h.find? hkey ht).bind ?_
  rw [List.find?_eq_bind_findIdx?_getElem?]
  cases (tableOf pairs (s.get id).entries).findIdx? fun p => p.1.standing s = key.standing s with
  | none => rfl
  | some i => exact htaken.bind rfl

/-- A key is found by its standing. -/
theorem lookup {id : Nat} {pairs : List (Value × Value)} (hend : (s.get id).ended = true)
    (ht : Tabled s D pairs (s.get id).entries) (hkey : D key)
    (hp : p ∈ tableOf pairs (s.get id).entries) (heq : p.1.standing s = key.standing s) :
    Answers s (R.lookup id pairs key) p.2 := by
  have hfound := h.lookup? hend ht.indexed hkey
  cases hfind : (tableOf pairs (s.get id).entries).find? fun q => q.1.standing s = key.standing s with
  | none => exact absurd heq (by simpa using List.find?_eq_none.1 hfind p hp)
  | some q =>
    have hkeys : q.1.standing s = p.1.standing s := by
      have hq := List.find?_some hfind
      exact (of_decide_eq_true hq).trans heq.symm
    -- no two keys stand at one place, so the entry that is found is the given one
    obtain rfl : q = p := List.inj_on_of_nodup_map ht.nodup (List.mem_of_find?_eq_some hfind) hp hkeys
    rw [hfind] at hfound
    exact hfound.bind rfl

/-! ### Sets of entries -/

/-- An entry is found by the standings of both parts. -/
theorem hasEntry {k v : Value} (hk : D k) (hv : D v) : ∀ {P : List (Value × Value)},
    (∀ p ∈ P, D p.1 ∧ D p.2) →
    Answers s (R.hasEntry ((k.standing s).hash, (v.standing s).hash) k v (hashedOf s P))
      (decide (Value.pairStanding s (k, v) ∈ P.map (Value.pairStanding s)))
  | [], _ => rfl
  | (k', v') :: r, hP => by
    obtain ⟨⟨hk', hv'⟩, hr⟩ := List.forall_mem_cons.1 hP
    have hmem : Value.pairStanding s (k, v) ∈ ((k', v') :: r).map (Value.pairStanding s) ↔
        (k.standing s = k'.standing s ∧ v.standing s = v'.standing s) ∨
          Value.pairStanding s (k, v) ∈ r.map (Value.pairStanding s) := by
      rw [List.map_cons, List.mem_cons, Value.pairStanding, Value.pairStanding, Prod.mk.injEq]
    -- if the first entry is another one, the rest decides
    have hnext : ¬ (k.standing s = k'.standing s ∧ v.standing s = v'.standing s) →
        Answers s (R.hasEntry ((k.standing s).hash, (v.standing s).hash) k v (hashedOf s r))
          (decide (Value.pairStanding s (k, v) ∈ ((k', v') :: r).map (Value.pairStanding s))) :=
      fun hne => (hasEntry hk hv hr).of_iff (by rw [hmem]; simp [hne])
    rw [hashedOf, List.map_cons, Relations.hasEntry]
    by_cases hsame : ((k'.standing s).hash, (v'.standing s).hash) =
        ((k.standing s).hash, (v.standing s).hash)
    · rw [if_pos hsame]
      refine (h.alike hk' hk).cases (fun hkeys => ?_) fun hne => hnext fun heq => hne heq.1.symm
      refine (h.alike hv' hv).cases (fun hvalues => ?_) fun hne => hnext fun heq => hne heq.2.symm
      exact answers_true (hmem.2 (.inl ⟨hkeys.symm, hvalues.symm⟩))
    · rw [if_neg hsame]
      exact hnext fun heq => hsame (by rw [heq.1, heq.2])

/-- A set of entries with other keys does not have the entry. -/
theorem hasEntry_new {hashes : Nat × Nat} {k v : Value} (hk : D k) : ∀ {set : Hashed},
    (∀ e ∈ set, D e.2.1 ∧ e.2.1.standing s ≠ k.standing s) →
    Answers s (R.hasEntry hashes k v set) false
  | [], _ => rfl
  | (hashes', k', v') :: r, hset => by
    obtain ⟨⟨hk', hne⟩, hr⟩ := List.forall_mem_cons.1 hset
    rw [Relations.hasEntry]
    by_cases hsame : hashes' = hashes
    · rw [if_pos hsame]
      exact (h.alike hk' hk).cases (absurd · hne) fun _ => hasEntry_new hk hr
    · rw [if_neg hsame]
      exact hasEntry_new hk hr

/-- An entry with a new key is added to the set. -/
theorem addEntry_new (hp : D p.1 ∧ D p.2) {done : List (Value × Value)}
    (hdone : ∀ q ∈ done, D q.1) (hnew : ∀ q ∈ done, q.1.standing s ≠ p.1.standing s) :
    Answers s (R.addEntry (hashedOf s done) p) (hashedOf s (done ++ [p])) := by
  rw [hashedOf_concat]
  refine addEntry_gives (h.hash hp.1) (h.hash hp.2) (h.hasEntry_new hp.1 ?_)
  exact (forall_hashedOf (C := fun k => D k ∧ k.standing s ≠ p.1.standing s)).2 fun q hq =>
    ⟨hdone q hq, hnew q hq⟩

/-- Entries are added one by one. -/
theorem hashed_append {rest : List (Value × Value)} : ∀ done : List (Value × Value),
    (∀ p ∈ done ++ rest, D p.1 ∧ D p.2) → ((done ++ rest).map fun p => p.1.standing s).Nodup →
    Answers s (rest.foldlM R.addEntry (hashedOf s done)) (hashedOf s (done ++ rest)) := by
  induction rest with
  | nil =>
    intro done _ _
    rw [List.append_nil]
    rfl
  | cons p rest ih =>
    intro done hD hnodup
    obtain ⟨hdone, hrest⟩ := List.forall_mem_append.1 hD
    have hadd := h.addEntry_new (List.forall_mem_cons.1 hrest).1 (fun q hq => (hdone q hq).1)
      (fun q hq => standing_ne_of_nodup hnodup hq)
    have hstep := ih (done ++ [p]) (by simpa using hD) (by simpa using hnodup)
    rw [List.append_assoc, List.singleton_append] at hstep
    rw [List.foldlM_cons]
    exact hadd.bind hstep

theorem hashed (hD : ∀ p ∈ P, D p.1 ∧ D p.2) (hnodup : (P.map fun p => p.1.standing s).Nodup) :
    Answers s (R.hashed P) (hashedOf s P) := by
  rw [hashed_eq_foldlM]
  exact h.hashed_append [] hD hnodup

/-- One set of entries is part of the other. -/
theorem subset {Q : List (Value × Value)} (hQ : ∀ q ∈ Q, D q.1 ∧ D q.2) :
    ∀ {P : List (Value × Value)}, (∀ p ∈ P, D p.1 ∧ D p.2) →
    Answers s (R.subset (hashedOf s Q) (hashedOf s P))
      (decide (∀ p ∈ P.map (Value.pairStanding s), p ∈ Q.map (Value.pairStanding s)))
  | [], _ => answers_true (by simp)
  | (k, v) :: r, hP => by
    obtain ⟨⟨hk, hv⟩, hr⟩ := List.forall_mem_cons.1 hP
    refine (h.hasEntry hk hv hQ).cases (fun hmem => ?_) fun hnot => answers_false ?_
    · refine (subset hQ hr).of_iff ?_
      rw [List.map_cons, List.forall_mem_cons]
      exact (and_iff_right hmem).symm
    · rw [List.map_cons, List.forall_mem_cons]
      exact fun hand => hnot hand.1

/-! ### Objects -/

/-- The values of keys in turn, when it is known how the values stand. -/
theorem lessByKeys {id : Nat} {pairs : List (Value × Value)} {ks : List Value}
    {qs qs' : List Standing}
    (hqs : List.Forall₂ (fun k q => ∃ v, D v ∧ Answers s (R.lookup id pairs k) v ∧
      v.standing s = q) ks qs)
    (hqs' : List.Forall₂ (fun k q => ∃ v, D v ∧ Answers s (R.lookup id' pairs' k) v ∧
      v.standing s = q) ks qs') :
    Answers s (R.lessByKeys id pairs id' pairs' ks) (decide (qs < qs')) := by
  induction hqs generalizing qs' with
  | nil =>
    cases hqs'
    rfl
  | @cons k q ks qs hk hks ih =>
    obtain _ | ⟨hk', hks'⟩ := hqs'
    rename_i q' qs'
    obtain ⟨v, hv, hlook, rfl⟩ := hk
    obtain ⟨v', hv', hlook', rfl⟩ := hk'
    refine hlook.bind (hlook'.bind ((h.less hv hv').cases (fun hlt => ?_) fun hlt => ?_))
    · exact answers_true (List.cons_lt_cons_iff.2 (.inl hlt))
    refine hlook.bind (hlook'.bind ((h.greater hv hv').cases (fun hgt => ?_) fun hgt => ?_))
    · refine answers_false ?_
      rw [List.cons_lt_cons_iff]
      exact fun hor => hor.elim hlt fun heq => hgt.ne' heq.1
    · refine (ih hks').of_iff ?_
      have heq := le_antisymm (not_lt.1 hgt) (not_lt.1 hlt)
      rw [List.cons_lt_cons_iff]
      simp [heq]

/-- Sorted keys, with the standings of their values. -/
theorem sortedKeys {id : Nat} {pairs : List (Value × Value)}
    (ht : Tabled s D pairs (s.get id).entries) :
    ∃ ks, Answers s (sortBy R.less ((tableOf pairs (s.get id).entries).map Prod.fst)) ks ∧
      (∀ k ∈ ks, D k) ∧ ks.map (·.standing s) = (Standing.sorted
        ((tableOf pairs (s.get id).entries).map (Value.pairStanding s))).map Prod.fst := by
  set table := tableOf pairs (s.get id).entries with htable
  have hD : ∀ k ∈ table.map Prod.fst, D k := by
    intro k hk
    obtain ⟨p, hp, rfl⟩ := List.mem_map.1 hk
    exact (ht.mem hp).1
  have hkey : Sorting.ByKey s D R.less (Value.standing s) := h.less
  obtain ⟨ks, hks, hperm, hsorted⟩ := sortBy_answers hkey hD
  refine ⟨ks, hks, fun k hk => hD k (hperm.mem_iff.1 hk), ?_⟩
  refine Standing.eq_keys_sorted ?_ (List.pairwise_map.2 hsorted)
  have hkeys := hperm.map (Value.standing s)
  rw [List.map_map] at hkeys ⊢
  exact hkeys

/-- The keys of an object in the order of their standings lead to its values. -/
theorem valuesOf {id : Nat} {pairs : List (Value × Value)} (hend : (s.get id).ended = true)
    (ht : Tabled s D pairs (s.get id).entries) {ks : List Value} (hD : ∀ k ∈ ks, D k)
    {P : List (Standing × Standing)}
    (hP : ∀ p ∈ P, p ∈ (tableOf pairs (s.get id).entries).map (Value.pairStanding s))
    (hks : ks.map (·.standing s) = P.map Prod.fst) :
    List.Forall₂ (fun k q => ∃ v, D v ∧ Answers s (R.lookup id pairs k) v ∧ v.standing s = q) ks
      (P.map Prod.snd) := by
  induction P generalizing ks with
  | nil =>
    cases List.map_eq_nil_iff.1 hks
    exact .nil
  | cons p P ih =>
    obtain ⟨k, ks, rfl, hk, hrestKeys⟩ := List.map_eq_cons_iff.1 hks
    obtain ⟨hDk, hDks⟩ := List.forall_mem_cons.1 hD
    obtain ⟨hp, hrest⟩ := List.forall_mem_cons.1 hP
    obtain ⟨q, hq, rfl⟩ := List.mem_map.1 hp
    exact .cons ⟨q.2, (ht.mem hq).2, h.lookup hend ht hDk hq hk.symm, rfl⟩
      (ih hDks hrest hrestKeys)

/-- Objects are ordered by keys and then by values. -/
theorem lessObjects {id : Nat} {pairs : List (Value × Value)}
    (hend : (s.get id).ended = true) (ht : Tabled s D pairs (s.get id).entries)
    (hend' : (s.get id').ended = true) (ht' : Tabled s D pairs' (s.get id').entries) :
    Answers s (R.lessObjects id pairs id' pairs')
      (decide ((Value.object id pairs).standing s < (Value.object id' pairs').standing s)) := by
  obtain ⟨ks, hks, hD, hkeys⟩ := h.sortedKeys ht
  obtain ⟨ks', hks', hD', hkeys'⟩ := h.sortedKeys ht'
  simp only [Value.standing_object, Standing.object_lt]
  refine (answers_keys hend pairs).bind (hks.bind ?_)
  refine (answers_keys hend' pairs').bind (hks'.bind ?_)
  refine (h.lessKeys hD hD').cases (fun hlt => ?_) fun hlt => ?_
  · rw [hkeys, hkeys'] at hlt
    exact answers_true (.inl hlt)
  refine (h.greaterKeys hD hD').cases (fun hgt => ?_) fun hgt => ?_
  · rw [hkeys, hkeys'] at hlt hgt
    exact answers_false fun hor => hor.elim hlt fun heq => hgt.ne' heq.1
  -- the keys are the same, so those of the first object find the values of both
  · have hsame := le_antisymm (not_lt.1 hgt) (not_lt.1 hlt)
    have hvalues := h.valuesOf hend ht hD (fun p hp => (Standing.sorted_perm _).mem_iff.1 hp) hkeys
    have hvalues' := h.valuesOf hend' ht' hD (fun p hp => (Standing.sorted_perm _).mem_iff.1 hp)
      (hsame.trans hkeys')
    refine (h.lessByKeys hvalues hvalues').of_iff ?_
    rw [← hkeys, ← hkeys', hsame]
    simp

/-- Sets of entries are compared by size and by what is in them, which decides whether their objects stand
at one place. -/
theorem sameSets {Q : List (Value × Value)} (hP : ∀ p ∈ P, D p.1 ∧ D p.2)
    (hQ : ∀ q ∈ Q, D q.1 ∧ D q.2) (hnodup : (P.map fun p => p.1.standing s).Nodup) :
    Answers s (do
        if (hashedOf s P).length ≠ (hashedOf s Q).length then return false
        R.subset (hashedOf s Q) (hashedOf s P))
      (decide (Standing.object (P.map (Value.pairStanding s)) =
        .object (Q.map (Value.pairStanding s)))) := by
  have hkeys : ((P.map (Value.pairStanding s)).map Prod.fst).Nodup := by
    rw [List.map_map]
    exact hnodup
  have heq := Standing.object_inj (Q := Q.map (Value.pairStanding s)) hkeys
  rw [List.length_map, List.length_map] at heq
  rw [hashedOf, hashedOf, List.length_map, List.length_map]
  split
  · rename_i hne
    exact answers_false fun hobject => hne (heq.1 hobject).1
  · rename_i hlength
    refine (h.subset hQ hP).of_iff ?_
    rw [heq]
    exact (and_iff_right (not_not.1 hlength)).symm

theorem equalObjects {id : Nat} {pairs : List (Value × Value)}
    (hend : (s.get id).ended = true) (ht : Tabled s D pairs (s.get id).entries)
    (hend' : (s.get id').ended = true) (ht' : Tabled s D pairs' (s.get id').entries) :
    Answers s (R.nextEqual (.object id pairs) (.object id' pairs'))
      (decide ((Value.object id pairs).standing s = (Value.object id' pairs').standing s)) := by
  rw [Value.standing_object, Value.standing_object]
  have hset := h.hashed (fun p hp => ht.mem hp) ht.nodup
  have hset' := h.hashed (fun p hp => ht'.mem hp) ht'.nodup
  refine (answers_entries hend pairs).bind (hset.bind ?_)
  refine (answers_entries hend' pairs').bind (hset'.bind ?_)
  exact h.sameSets (fun p hp => ht.mem hp) (fun p hp => ht'.mem hp) ht.nodup

end Agrees

end FilterShell.Relations
