import FilterShell.Proofs.Value.Levels

/-!
# Tables of objects

A pair whose key is in the table gives its value to the entry there, any other goes to the end
(`Table.ofPairs`).  So a table has one entry for every class of equal keys, with the first key and the last value.

Reading an object fills such a table.  The relations that read it are *steady* if they agree with the
standings in every store that is read on, and then each read of the object takes one pair of it, or the end
behind the last (`Relations.Steady.takePair?`).
-/

namespace FilterShell

variable {s' : Store} {n : Nat} {D' : Value → Prop} {p : Progress}

/-! ### Tables -/

namespace Table

variable {α β κ : Type} [DecidableEq κ] (key : α → κ)

/-- A pair gives its value to the entry of its key, or goes to the end if there is none. -/
def entered (p : α × β) : List (α × β) → List (α × β)
  | []     => [p]
  | q :: r => if key q.1 = key p.1 then (q.1, p.2) :: r else q :: entered p r

/-- The table that pairs make. -/
def ofPairs (pairs : List (α × β)) : List (α × β) := pairs.foldl (fun t p => entered key p t) []

theorem ofPairs_concat (pairs : List (α × β)) (p : α × β) :
    ofPairs key (pairs ++ [p]) = entered key p (ofPairs key pairs) := List.foldl_concat ..

variable {key}

theorem mem_entered {p q : α × β} {t : List (α × β)} (h : q ∈ entered key p t) :
    (q.1 = p.1 ∨ ∃ r ∈ t, q.1 = r.1) ∧ (q.2 = p.2 ∨ ∃ r ∈ t, q.2 = r.2) := by
  induction t with
  | nil =>
    obtain rfl := List.mem_singleton.1 h
    exact ⟨.inl rfl, .inl rfl⟩
  | cons r t ih =>
    rw [entered] at h
    by_cases hr : key r.1 = key p.1
    · rw [if_pos hr] at h
      rcases List.mem_cons.1 h with rfl | h
      · exact ⟨.inr ⟨r, List.mem_cons_self, rfl⟩, .inl rfl⟩
      · have hq := List.mem_cons_of_mem r h
        exact ⟨.inr ⟨q, hq, rfl⟩, .inr ⟨q, hq, rfl⟩⟩
    · rw [if_neg hr] at h
      rcases List.mem_cons.1 h with rfl | h
      · exact ⟨.inr ⟨q, List.mem_cons_self, rfl⟩, .inr ⟨q, List.mem_cons_self, rfl⟩⟩
      · obtain ⟨hkey, hvalue⟩ := ih h
        exact ⟨hkey.imp_right fun ⟨x, hx, e⟩ => ⟨x, List.mem_cons_of_mem _ hx, e⟩,
          hvalue.imp_right fun ⟨x, hx, e⟩ => ⟨x, List.mem_cons_of_mem _ hx, e⟩⟩

/-- Keys and values of a table come from the pairs. -/
theorem mem_ofPairs {pairs : List (α × β)} {q : α × β} (h : q ∈ ofPairs key pairs) :
    (∃ p ∈ pairs, q.1 = p.1) ∧ ∃ p ∈ pairs, q.2 = p.2 := by
  induction pairs using List.reverseRecOn generalizing q with
  | nil => cases h
  | append_singleton pairs p ih =>
    rw [ofPairs_concat] at h
    have hlast : p ∈ pairs ++ [p] := List.mem_append_right _ List.mem_cons_self
    have hfront : ∀ x ∈ pairs, x ∈ pairs ++ [p] := fun x hx => List.mem_append_left _ hx
    obtain ⟨hkey, hvalue⟩ := mem_entered h
    constructor
    · rcases hkey with hkey | ⟨r, hr, hkey⟩
      · exact ⟨p, hlast, hkey⟩
      · obtain ⟨x, hx, e⟩ := (ih hr).1
        exact ⟨x, hfront x hx, hkey.trans e⟩
    · rcases hvalue with hvalue | ⟨r, hr, hvalue⟩
      · exact ⟨p, hlast, hvalue⟩
      · obtain ⟨x, hx, e⟩ := (ih hr).2
        exact ⟨x, hfront x hx, hvalue.trans e⟩

theorem entered_new {p : α × β} {t : List (α × β)} (h : ∀ q ∈ t, key q.1 ≠ key p.1) :
    entered key p t = t ++ [p] := by
  induction t with
  | nil => rfl
  | cons q r ih =>
    obtain ⟨hq, hr⟩ := List.forall_mem_cons.1 h
    rw [entered, if_neg hq, ih hr, List.cons_append]

theorem entered_congr {key' : α → κ} {p : α × β} (hp : key p.1 = key' p.1) {t : List (α × β)}
    (h : ∀ q ∈ t, key q.1 = key' q.1) : entered key p t = entered key' p t := by
  induction t with
  | nil => rfl
  | cons q r ih =>
    obtain ⟨hq, hr⟩ := List.forall_mem_cons.1 h
    rw [entered, entered, hp, hq, ih hr]

theorem ofPairs_congr {key' : α → κ} {pairs : List (α × β)}
    (h : ∀ p ∈ pairs, key p.1 = key' p.1) : ofPairs key pairs = ofPairs key' pairs := by
  induction pairs using List.reverseRecOn with
  | nil => rfl
  | append_singleton pairs p ih =>
    obtain ⟨hfront, hlast⟩ := List.forall_mem_append.1 h
    rw [ofPairs_concat, ofPairs_concat, ← ih hfront]
    refine entered_congr (hlast p List.mem_cons_self) fun q hq => ?_
    obtain ⟨⟨r, hr, hkey⟩, -⟩ := mem_ofPairs hq
    rw [hkey]
    exact hfront r hr

theorem keys_entered_known {p : α × β} {t : List (α × β)} (h : ∃ q ∈ t, key q.1 = key p.1) :
    (entered key p t).map Prod.fst = t.map Prod.fst := by
  induction t with
  | nil => simp at h
  | cons q r ih =>
    rw [entered]
    by_cases hq : key q.1 = key p.1
    · rw [if_pos hq]
      rfl
    · have hr : ∃ q ∈ r, key q.1 = key p.1 := by simpa [hq] using h
      rw [if_neg hq, List.map_cons, List.map_cons, ih hr]

/-- The value of a class of keys. -/
def find? (key : α → κ) (t : List (α × β)) (c : κ) : Option β :=
  (t.find? fun p => key p.1 = c).map Prod.snd

/-- The new pair is found under its key. -/
theorem find?_entered (p : α × β) (t : List (α × β)) (c : κ) :
    find? key (entered key p t) c = if key p.1 = c then some p.2 else find? key t c := by
  induction t with
  | nil =>
    by_cases hc : key p.1 = c <;> simp [find?, entered, hc]
  | cons q r ih =>
    rw [entered]
    simp only [find?] at ih ⊢
    by_cases hq : key q.1 = key p.1
    · by_cases hc : key p.1 = c <;> simp [hq, hc]
    · rw [if_neg hq]
      by_cases hc : key q.1 = c
      · have hp : key p.1 ≠ c := fun h => hq (hc.trans h.symm)
        simp [hc, hp]
      · simpa [hc] using ih

/-- **The value of a class is the last one.** -/
theorem find?_ofPairs (pairs : List (α × β)) (c : κ) :
    find? key (ofPairs key pairs) c = find? key pairs.reverse c := by
  induction pairs using List.reverseRecOn with
  | nil => rfl
  | append_singleton pairs p ih =>
    rw [ofPairs_concat, find?_entered, ih, List.reverse_append]
    by_cases hc : key p.1 = c <;> simp [find?, hc]

theorem mem_classes_entered (p : α × β) (t : List (α × β)) (c : κ) :
    (∃ q ∈ entered key p t, key q.1 = c) ↔ key p.1 = c ∨ ∃ q ∈ t, key q.1 = c := by
  by_cases h : ∃ q ∈ t, key q.1 = key p.1
  · have hkeys := keys_entered_known h
    have hclass : ∀ u : List (α × β), (∃ q ∈ u, key q.1 = c) ↔ c ∈ (u.map Prod.fst).map key := by
      simp
    rw [hclass, hkeys, ← hclass, or_iff_right_of_imp]
    rintro rfl
    exact h
  · rw [entered_new fun q hq hk => h ⟨q, hq, hk⟩]
    simp [or_and_right, exists_or, or_comm]

/-- The classes of the keys are those of the pairs. -/
theorem mem_classes (pairs : List (α × β)) (c : κ) :
    (∃ q ∈ ofPairs key pairs, key q.1 = c) ↔ ∃ p ∈ pairs, key p.1 = c := by
  induction pairs using List.reverseRecOn with
  | nil => simp [ofPairs]
  | append_singleton pairs p ih =>
    rw [ofPairs_concat, mem_classes_entered, ih]
    simp [or_and_right, exists_or, or_comm]

/-- **One entry for each class of keys.** -/
theorem nodup_ofPairs (pairs : List (α × β)) : ((ofPairs key pairs).map fun p => key p.1).Nodup := by
  induction pairs using List.reverseRecOn with
  | nil => exact List.nodup_nil
  | append_singleton pairs p ih =>
    rw [ofPairs_concat]
    by_cases h : ∃ q ∈ ofPairs key pairs, key q.1 = key p.1
    · have hkeys := congrArg (List.map key) (keys_entered_known h)
      rw [List.map_map, List.map_map] at hkeys
      exact hkeys ▸ ih
    · rw [entered_new fun q hq hk => h ⟨q, hq, hk⟩, List.map_append]
      refine ih.append (List.nodup_singleton _) ?_
      simpa using h

end Table

open Reading

variable {s : Store} {home : Nat → Value} {D : Value → Prop} {R : Relations}

/-! ### Reading on -/

/-- What has been taken to its end stays as it is. -/
def Store.Extends (s s' : Store) : Prop := ∀ i, (s.get i).ended = true → s'.get i = s.get i

/-- Nobody has read the container, and its end waits behind everything. -/
structure Progress.Unread (p : Progress) (size : Nat) : Prop where
  taken   : p.taken = 0
  ended   : p.ended = false
  stop    : p.end? size = some size
  entries : p.entries = []

/-- Only one container has been read on. -/
def Store.SameBut (s : Store) (id : Nat) (s' : Store) : Prop := ∀ i, i ≠ id → s'.get i = s.get i

theorem Store.SameBut.extends {id : Nat} (h : s.SameBut id s')
    (hopen : (s.get id).ended = false) : s.Extends s' := by
  intro i hi
  refine h i ?_
  rintro rfl
  rw [hopen] at hi
  cases hi

theorem Store.Extends.trans {s'' : Store} (h : s.Extends s') (h' : s'.Extends s'') :
    s.Extends s'' := by
  intro i hi
  have hget := h i hi
  rw [← hget] at hi
  rw [h' i hi, hget]

/-- One container may have been read on, if its end had not been taken. -/
structure Store.ReadOn (s : Store) (id : Nat) (s' : Store) : Prop where
  same   : s.SameBut id s'
  extend : s.Extends s'

theorem Store.ReadOn.refl (s : Store) (id : Nat) : s.ReadOn id s := ⟨fun _ _ => rfl, fun _ _ => rfl⟩

theorem Store.ReadOn.trans {id : Nat} {s'' : Store} (h : s.ReadOn id s') (h' : s'.ReadOn id s'') :
    s.ReadOn id s'' where
  same i hi := (h'.same i hi).trans (h.same i hi)
  extend := h.extend.trans h'.extend

theorem lookup_filter {α : Type} {i id : Nat} (h : i ≠ id) (l : List (Nat × α)) :
    (l.filter (·.1 != id)).lookup i = l.lookup i := by
  induction l with
  | nil => rfl
  | cons x l ih =>
    obtain ⟨j, p⟩ := x
    by_cases hj : j = id
    · subst hj
      simp [List.lookup_cons, ih, beq_eq_false_iff_ne.2 h]
    · rw [List.filter_cons_of_pos (by simpa using hj), List.lookup_cons, List.lookup_cons, ih]

theorem Store.get_put (s : Store) (id : Nat) (p : Progress) (i : Nat) :
    (s.put id p).get i = if i = id then p else s.get i := by
  unfold Store.get Store.put
  by_cases hi : i = id
  · simp [hi]
  · rw [if_neg hi, List.lookup_cons, show (i == id) = false by simpa using hi]
    exact congrArg (Option.getD · _) (lookup_filter hi s.progress)

theorem Store.get_put_self (s : Store) (id : Nat) (p : Progress) : (s.put id p).get id = p := by
  rw [Store.get_put, if_pos rfl]

theorem Store.SameBut.put {id : Nat} (h : s.SameBut id s') (p : Progress) :
    s.SameBut id (s'.put id p) := by
  intro i hi
  rw [Store.get_put, if_neg hi, h i hi]

theorem Store.ReadOn.put {id : Nat} (hopen : (s.get id).ended = false) (p : Progress) :
    s.ReadOn id (s.put id p) := by
  have hsame : s.SameBut id (s.put id p) := Store.SameBut.put (fun _ _ => rfl) p
  exact ⟨hsame, hsame.extends hopen⟩

namespace Reading

theorem take?_end {id size : Nat} (hopen : (s.get id).ended = false)
    (hend : (s.get id).end? size = some (s.get id).taken) :
    Gives s (take? id size) none (s.put id ((s.get id).atEnd (s.get id).taken)) := by
  have hprogress : Answers s (progress id) (s.get id) := rfl
  refine Gives.bind hprogress ?_
  rw [if_neg (by simpa using hopen), if_pos hend]
  rfl

theorem take?_next {id size e : Nat} (hopen : (s.get id).ended = false)
    (hend : (s.get id).end? size = some e) (hlt : (s.get id).taken < e) (he : e ≤ size) :
    Gives s (take? id size) (some (s.get id).taken)
      (s.put id { s.get id with taken := (s.get id).taken + 1 }) := by
  have hprogress : Answers s (progress id) (s.get id) := rfl
  refine Gives.bind hprogress ?_
  rw [if_neg (by simpa using hopen), if_neg (by rw [hend]; simpa using hlt.ne'),
    if_pos (hlt.trans_le he)]
  rfl

end Reading

theorem Value.SettledTo.extends (hs : s.Extends s') {v : Value}
    (h : v.SettledTo s home n) : v.SettledTo s' home n ∧ v.standing s' = v.standing s := by
  induction n generalizing v with
  | zero => exact h.elim
  | succ n ih => cases v with
    | exception | null | bool | number => exact ⟨h, rfl⟩
    | string id pieces =>
      have hid := hs id h.1
      refine ⟨⟨by rw [hid]; exact h.1, h.2⟩, ?_⟩
      rw [standing, standing, hid]
    | array id items =>
      obtain ⟨hend, hhome, hitems⟩ := h
      have hid := hs id hend
      refine ⟨⟨by rw [hid]; exact hend, hhome, ?_⟩, ?_⟩
      · rw [hid]
        exact fun v hv => (ih (hitems v hv)).1
      · rw [standing_array, standing_array, hid]
        exact congrArg _ (List.map_congr_left fun v hv => (ih (hitems v hv)).2)
    | object id pairs =>
      obtain ⟨hend, hhome, ht⟩ := h
      have hid := hs id hend
      refine ⟨⟨by rw [hid]; exact hend, hhome, ?_⟩, ?_⟩
      · rw [hid]
        exact ht.transfer fun v hv => ih hv
      · rw [standing_object, standing_object, hid]
        refine congrArg _ (List.map_congr_left fun p hp => ?_)
        rw [pairStanding, pairStanding, (ih (ht.mem hp).1).2, (ih (ht.mem hp).2).2]

namespace Relations

/-! ### Taking pairs -/

section Place

variable {pairs : List (Value × Value)} {place : Nat} {k v : Value}
  (hplace : pairs[place]? = some (k, v))

include hplace

theorem pick_modify {e : Entry} {k' v' : Value} (h : e.pick pairs = some (k', v')) :
    Entry.pick pairs { e with value := place } = some (k', v) := by
  obtain ⟨⟨w, hkey⟩, -⟩ := Entry.pick_eq h
  simp [Entry.pick, hkey, hplace]

/-- Replacing a value keeps the keys. -/
theorem Indexed.modify {entries : List Entry} (h : Indexed s D pairs entries) (i : Nat) :
    Indexed s D pairs (entries.modify i fun e => { e with value := place }) := by
  induction entries generalizing i with
  | nil => simpa using h
  | cons e r ih =>
    obtain ⟨⟨k', v', hpick, hk', hhash⟩, hr⟩ := List.forall_mem_cons.1 h
    cases i with
    | zero =>
      rw [List.modify_zero_cons]
      exact List.forall_mem_cons.2 ⟨⟨k', v, pick_modify hplace hpick, hk', hhash⟩, hr⟩
    | succ i =>
      rw [List.modify_succ_cons]
      exact List.forall_mem_cons.2 ⟨⟨k', v', hpick, hk', hhash⟩, ih hr i⟩

/-- A pair with a known key gives its value to the entry of the key. -/
theorem tableOf_modify {entries : List Entry} (h : Indexed s D pairs entries) {i : Nat}
    (hi : (tableOf pairs entries).findIdx? (fun p => p.1.standing s = k.standing s) = some i) :
    tableOf pairs (entries.modify i fun e => { e with value := place }) =
      Table.entered (Value.standing s) (k, v) (tableOf pairs entries) := by
  induction entries generalizing i with
  | nil => cases hi
  | cons e r ih =>
    obtain ⟨⟨k', v', hpick, -, -⟩, hr⟩ := List.forall_mem_cons.1 h
    rw [tableOf_cons hpick, List.findIdx?_cons] at hi
    rw [tableOf_cons hpick, Table.entered]
    by_cases hk : k'.standing s = k.standing s
    · rw [if_pos (decide_eq_true hk)] at hi
      cases hi
      rw [if_pos hk, List.modify_zero_cons, tableOf_cons (pick_modify hplace hpick)]
    · rw [if_neg (by simpa using hk)] at hi
      obtain ⟨j, hj, rfl⟩ := Option.map_eq_some_iff.1 hi
      rw [if_neg hk, List.modify_succ_cons, tableOf_cons hpick, ih hr hj]

/-- A pair with a new key makes an entry at the end. -/
theorem tableOf_concat {entries : List Entry}
    (hi : (tableOf pairs entries).findIdx? (fun p => p.1.standing s = k.standing s) = none)
    (hash : Nat) :
    tableOf pairs (entries ++ [⟨hash, place, place⟩]) =
      Table.entered (Value.standing s) (k, v) (tableOf pairs entries) := by
  have hpick : Entry.pick pairs ⟨hash, place, place⟩ = some (k, v) := by simp [Entry.pick, hplace]
  rw [Table.entered_new, tableOf, List.filterMap_append]
  · exact congrArg _ (tableOf_cons hpick)
  · intro p hp
    simpa using List.findIdx?_eq_none_iff.1 hi p hp

theorem Indexed.concat {entries : List Entry} (h : Indexed s D pairs entries) (hk : D k) :
    Indexed s D pairs (entries ++ [⟨(k.standing s).hash, place, place⟩]) :=
  List.forall_mem_append.2 ⟨h, List.forall_mem_singleton.2
    ⟨k, v, by simp [Entry.pick, hplace], hk, rfl⟩⟩

/-- **Entering a pair** enters it into the table. -/
theorem enter_gives (hR : R.Agrees s D) {id : Nat} (hk : D k)
    (ht : Indexed s D pairs (s.get id).entries) :
    ∃ entries, Gives s (R.enter id pairs place) () (s.put id { s.get id with entries }) ∧
      Indexed s D pairs entries ∧ tableOf pairs entries =
        Table.entered (Value.standing s) (k, v) (tableOf pairs (s.get id).entries) := by
  have hprogress : Answers s (progress id) (s.get id) := rfl
  have hfind := hR.find? hk ht
  rw [enter, hplace]
  cases hi : (tableOf pairs (s.get id).entries).findIdx? fun p => p.1.standing s = k.standing s with
  | some i =>
    rw [hi] at hfind
    refine ⟨_, ?_, ht.modify hplace i, tableOf_modify hplace ht hi⟩
    exact Gives.bind (hR.hash hk) (Gives.bind hprogress (Gives.bind hfind (Gives.bind hprogress rfl)))
  | none =>
    rw [hi] at hfind
    refine ⟨_, ?_, ht.concat hplace hk, tableOf_concat hplace hi _⟩
    exact Gives.bind (hR.hash hk) (Gives.bind hprogress (Gives.bind hfind (Gives.bind hprogress rfl)))

end Place

/-- The relations agree with the standings in every store that is read on, and these stay. -/
structure Steady (s : Store) (D : Value → Prop) (R : Relations) : Prop where
  agrees : ∀ ⦃s'⦄, s.Extends s' → R.Agrees s' D
  stays  : ∀ ⦃s'⦄, s.Extends s' → ∀ v, D v → v.standing s' = v.standing s

theorem upTo_steady (n : Nat) : (upTo n).Steady s (Value.SettledTo s home (n + 1)) where
  agrees _ hs := (upTo_agrees n).mono fun _ hv => (hv.extends hs).1
  stays _ hs _ hv := (hv.extends hs).2

theorem Indexed.mem {pairs : List (Value × Value)} {entries : List Entry}
    (h : Indexed s D pairs entries) {p : Value × Value} (hp : p ∈ tableOf pairs entries) : D p.1 := by
  obtain ⟨e, he, hpick⟩ := List.mem_filterMap.1 hp
  obtain ⟨k, v, hpick', hk, -⟩ := h e he
  cases hpick.symm.trans hpick'
  exact hk

theorem Indexed.transfer {pairs : List (Value × Value)}
    {entries : List Entry} (h : Indexed s D pairs entries)
    (hD : ∀ v, D v → D' v ∧ v.standing s' = v.standing s) : Indexed s' D' pairs entries := by
  intro e he
  obtain ⟨k, v, hpick, hk, hhash⟩ := h e he
  exact ⟨k, v, hpick, (hD k hk).1, by rw [hhash, (hD k hk).2]⟩

/-- `n` reads have been made of an object that nobody had read: of its pairs, and of the end behind
them. -/
structure Reached (s : Store) (D : Value → Prop) (pairs : List (Value × Value)) (n : Nat)
    (p : Progress) : Prop where
  taken : p.taken = min n pairs.length
  ended : p.ended = decide (pairs.length < n)
  stop  : p.ended = false → p.end? pairs.length = some pairs.length
  index : Indexed s D pairs p.entries
  table : tableOf pairs p.entries = Table.ofPairs (Value.standing s) (pairs.take n)

theorem reached_zero {pairs : List (Value × Value)} (h : p.Unread pairs.length) :
    Reached s D pairs 0 p where
  taken := by simp [h.taken]
  ended := by simp [h.ended]
  stop _ := h.stop
  index := by
    rw [h.entries]
    exact nofun
  table := by
    rw [h.entries, List.take_zero]
    rfl

/-- Behind the end there is nothing more to read. -/
theorem Reached.past {pairs : List (Value × Value)} {m : Nat}
    (h : Reached s D pairs m p) (hm : pairs.length < m) (hn : pairs.length < n) :
    Reached s D pairs n p where
  taken := by
    rw [h.taken]
    omega
  ended := by
    rw [h.ended]
    simp [hm, hn]
  stop := h.stop
  index := h.index
  table := by rw [h.table, List.take_of_length_le hm.le, List.take_of_length_le hn.le]

/-- Behind the end, the table is that of all pairs. -/
theorem Reached.whole {pairs : List (Value × Value)}
    (h : Reached s D pairs n p) (hn : pairs.length < n) :
    p.ended = true ∧ tableOf pairs p.entries = Table.ofPairs (Value.standing s) pairs := by
  refine ⟨?_, by rw [h.table, List.take_of_length_le hn.le]⟩
  rw [h.ended]
  simpa using hn

/-- The table stays while its keys stand where they stood. -/
theorem Reached.transfer {pairs : List (Value × Value)}
    (h : Reached s D pairs n p) (hkeys : ∀ p ∈ pairs, D p.1)
    (hD : ∀ v, D v → D' v ∧ v.standing s' = v.standing s) : Reached s' D' pairs n p where
  taken := h.taken
  ended := h.ended
  stop := h.stop
  index := h.index.transfer hD
  table := by
    rw [h.table]
    refine Table.ofPairs_congr fun p hp => ?_
    exact ((hD p.1 (hkeys p (List.mem_of_mem_take hp))).2).symm

theorem Reached.keyed {pairs : List (Value × Value)}
    (h : Reached s D pairs n p) (hkeys : ∀ p ∈ pairs, D' p.1) : Reached s D' pairs n p where
  taken := h.taken
  ended := h.ended
  stop := h.stop
  index e he := by
    obtain ⟨k, v, hpick, -, hhash⟩ := h.index e he
    obtain ⟨⟨w, hkey⟩, -⟩ := Entry.pick_eq hpick
    exact ⟨k, v, hpick, hkeys (k, w) (List.mem_of_getElem? hkey), hhash⟩
  table := h.table

namespace Steady

variable {id : Nat} {pairs : List (Value × Value)} (hR : R.Steady s D)
  (hkeys : ∀ p ∈ pairs, D p.1)

include hR hkeys

/-- **Reading an object** takes its next pair, or the end behind the last. -/
theorem takePair? (hs : s.Extends s') (h : Reached s D pairs n (s'.get id)) :
    ∃ s'', Gives s' (R.takePair? id pairs) (if n < pairs.length then some n else none) s'' ∧
      s'.ReadOn id s'' ∧ Reached s D pairs (n + 1) (s''.get id) := by
  rcases lt_trichotomy n pairs.length with hlt | rfl | hgt
  · have hended : (s'.get id).ended = false := by
      rw [h.ended]
      simpa using hlt.le
    have htaken : (s'.get id).taken = n := by
      rw [h.taken]
      omega
    have hnext := take?_next hended (h.stop hended) (by omega) le_rfl
    rw [htaken] at hnext
    rw [if_pos hlt]
    -- the pair has been taken, and is entered next
    set s₁ := s'.put id { s'.get id with taken := n + 1 }
    have hread₁ : s'.ReadOn id s₁ := .put hended _
    have hs₁ : s.Extends s₁ := hs.trans hread₁.extend
    have hget₁ : s₁.get id = { s'.get id with taken := n + 1 } := Store.get_put_self ..
    have hended₁ : (s₁.get id).ended = false := by
      rw [hget₁]
      exact hended
    obtain ⟨⟨k, v⟩, hplace⟩ : ∃ p, pairs[n]? = some p := ⟨_, List.getElem?_eq_getElem hlt⟩
    have hk : D k := hkeys (k, v) (List.mem_of_getElem? hplace)
    have hindex₁ : Indexed s₁ D pairs (s₁.get id).entries := by
      rw [hget₁]
      exact h.index.transfer fun v hv => ⟨hv, hR.stays hs₁ v hv⟩
    obtain ⟨entries, henter, hindex, htable⟩ := enter_gives hplace (hR.agrees hs₁) hk hindex₁
    refine ⟨_, Gives.bind hnext (Gives.bind henter rfl), hread₁.trans (.put hended₁ _), ?_⟩
    rw [Store.get_put_self, hget₁]
    refine ⟨by dsimp only; omega, ?_, h.stop, ?_, ?_⟩
    · rw [hended]
      simpa using hlt
    · exact hindex.transfer fun v hv => ⟨hv, (hR.stays hs₁ v hv).symm⟩
    · have hstay := fun p hp => hR.stays hs₁ _ (hindex₁.mem (p := p) hp)
      dsimp only
      rw [htable, Table.entered_congr (hR.stays hs₁ k hk) hstay, hget₁, h.table,
        ← Table.ofPairs_concat, List.take_add_one, hplace, Option.toList_some]
  · have hended : (s'.get id).ended = false := by
      rw [h.ended]
      simp
    have htaken : (s'.get id).taken = pairs.length := by rw [h.taken, Nat.min_self]
    have hlast := take?_end hended ((h.stop hended).trans (congrArg some htaken.symm))
    rw [if_neg (lt_irrefl _)]
    refine ⟨_, Gives.bind hlast rfl, .put hended _, ?_⟩
    rw [Store.get_put_self]
    refine ⟨by simp [Progress.atEnd, htaken], by simp [Progress.atEnd], nofun, h.index, ?_⟩
    rw [List.take_of_length_le (Nat.le_succ _)]
    exact h.table.trans (by rw [List.take_length])
  · have hended : (s'.get id).ended = true := by
      rw [h.ended]
      simpa using hgt
    rw [if_neg hgt.asymm]
    exact ⟨s', Gives.bind (answers_take? hended _) rfl, .refl _ _, h.past hgt (by omega)⟩

/-- **A run of reads** takes as many pairs, up to the end. -/
theorem takePairs (m : Nat) : ∀ {s' : Store}, s.Extends s' → ∀ {n : Nat},
    Reached s D pairs n (s'.get id) →
    ∃ s'', Gives s' (R.takePairs id pairs m) () s'' ∧ s'.ReadOn id s'' ∧
      Reached s D pairs (n + m) (s''.get id) := by
  induction m with
  | zero => exact fun {s'} _ {n} h => ⟨s', rfl, .refl _ _, h⟩
  | succ m ih =>
    intro s' hs n h
    obtain ⟨s₁, hpair, hread₁, h₁⟩ := hR.takePair? hkeys hs h
    by_cases hlt : n < pairs.length
    · rw [if_pos hlt] at hpair
      obtain ⟨s₂, hrest, hread₂, h₂⟩ := ih (hs.trans hread₁.extend) h₁
      refine ⟨s₂, Gives.bind hpair hrest, hread₁.trans hread₂, ?_⟩
      rwa [Nat.add_right_comm] at h₂
    · rw [if_neg hlt] at hpair
      exact ⟨s₁, Gives.bind hpair rfl, hread₁, h₁.past (by omega) (by omega)⟩

/-- **Taking all entries** of an object, however far it has been read. -/
theorem entries (hs : s.Extends s') (h : Reached s D pairs n (s'.get id)) :
    ∃ s'', Gives s' (R.entries id pairs) (Table.ofPairs (Value.standing s) pairs) s'' ∧
      s'.ReadOn id s'' ∧ Reached s D pairs (pairs.length + 1) (s''.get id) := by
  obtain ⟨s'', htake, hread, h''⟩ := hR.takePairs hkeys (pairs.length + 1) hs h
  refine ⟨s'', Gives.bind htake ?_, hread, h''.past (by omega) (Nat.lt_succ_self _)⟩
  rw [← (h''.whole (by omega)).2]
  rfl

end Steady

end Relations

end FilterShell
