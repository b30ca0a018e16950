import FilterShell.Proofs.Value.Exceptions
import FilterShell.Proofs.Value.Parallel
import FilterShell.Proofs.Value.Tracking
import FilterShell.Value.Layout

/-!
# Exhausted values

What has been read to its end gives the same in all stores in which it has been read to its end.  So in two
such stores exhausted values are compared, written and shown side by side (`Value.Hereditary.covers`,
`Terminal.linesTo_abreast`).  Hashing, and asking for equality, fails at signaling not-a-numbers only
(`Relations.below_certain`).
-/

namespace FilterShell

variable {v : Value} {set : Hashed} {id : Nat} {pairs : List (Value × Value)}

open Reading

variable {α β : Type} {s s₁ s₂ : Store} {K : Value → Prop}

/-! ### Two stores -/

namespace Reading

theorem Answers.of_bind {r : Reading α} {k : α → Reading β} {x : α} {y : β} (hr : Answers s r x)
    (h : Answers s (r >>= k) y) : Answers s (k x) y := by
  rw [Answers, Gives, run_bind, hr] at h
  exact h

theorem answers_bind_iff {r : Reading α} {k : α → Reading β} {y : β} (hr : (r.outcome.run s).2 = s) :
    Answers s (r >>= k) y ↔ ∃ x, Answers s r x ∧ Answers s (k x) y := by
  refine ⟨fun h => ?_, fun ⟨x, hx, hk⟩ => hx.bind hk⟩
  rw [Answers, Gives, run_bind] at h
  cases hrun : r.outcome.run s with
  | mk e s₁ =>
    rw [hrun] at h hr
    obtain rfl : s₁ = s := hr
    cases e with
    | error f => cases h
    | ok x => exact ⟨x, hrun, h⟩

end Reading

/-- The two stores, and no others. -/
def Store.Pinned (s₁ s₂ x y : Store) : Prop := x = s₁ ∧ y = s₂

namespace Parallel

variable {r r' : Reading α} {k k' : α → Reading β} {Q : β → Prop}

theorem of_answers {x : α} {P : α → Prop} (hr : Answers s₁ r x) (hr' : Answers s₂ r' x) (hx : P x) :
    Parallel (Store.Pinned s₁ s₂) r r' P := by
  rintro _ _ ⟨rfl, rfl⟩
  rw [hr, hr']
  refine ⟨rfl, ⟨rfl, rfl⟩, ?_⟩
  rintro _ ⟨⟩
  exact hx

/-- A container is at its end, and what is read of it depends on how far it has been read. -/
theorem of_ended {f : Progress → α} {P : α → Prop} (hended : (s.get id).ended = true)
    (h₁ : s.Extends s₁) (h₂ : s.Extends s₂)
    (hr : ∀ u : Store, (u.get id).ended = true → Answers u r (f (u.get id))) (hP : P (f (s.get id))) :
    Parallel (Store.Pinned s₁ s₂) r r P := by
  have hread : ∀ u, s.Extends u → Answers u r (f (s.get id)) := by
    intro u hu
    have hget := hu id hended
    have hanswer := hr u (by rw [hget, hended])
    rwa [hget] at hanswer
  exact of_answers (hread s₁ h₁) (hread s₂ h₂) hP

/-- Computations that answer, perhaps differently, and then go on side by side. -/
theorem after {x y : α} (hr : Answers s₁ r x) (hr' : Answers s₂ r' y)
    (hk : Parallel (Store.Pinned s₁ s₂) (k x) (k' y) Q) :
    Parallel (Store.Pinned s₁ s₂) (r >>= k) (r' >>= k') Q := by
  rintro _ _ ⟨rfl, rfl⟩
  rw [run_bind, run_bind, hr, hr']
  exact hk _ _ ⟨rfl, rfl⟩

theorem answers {x : α} {P : α → Prop} (h : Parallel (Store.Pinned s₁ s₂) r r' P) (hr : Answers s₁ r x) :
    Answers s₂ r' x := by
  obtain ⟨hsame, ⟨-, hstore⟩, -⟩ := h s₁ s₂ ⟨rfl, rfl⟩
  rw [hr] at hsame
  exact Prod.ext hsame hstore

/-- The stores are left as they are. -/
theorem still {P : α → Prop} (h : Parallel (Store.Pinned s₁ s₂) r r' P) :
    (r.outcome.run s₁).2 = s₁ ∧ (r'.outcome.run s₂).2 = s₂ := (h s₁ s₂ ⟨rfl, rfl⟩).2.1

theorem answers_bind {P : α → Prop} {y : β} (hr : Parallel (Store.Pinned s₁ s₂) r r' P)
    (h : Answers s₁ (r >>= k) y) : ∃ x, P x ∧ Answers s₂ r' x ∧ Answers s₁ (k x) y := by
  obtain ⟨x, hx, hk⟩ := (answers_bind_iff hr.still.1).1 h
  refine ⟨x, (hr s₁ s₂ ⟨rfl, rfl⟩).2.2 x ?_, hr.answers hx, hk⟩
  rw [hx]

end Parallel

/-! ### Classes of exhausted values -/

/-- The ends of the values have been taken, and the values hold only values of the class. -/
def Value.Hereditary (s : Store) (K : Value → Prop) : Prop :=
  ∀ v, K v → (∀ id, v.id? = some id → (s.get id).ended = true) ∧ v.Placed s ∧ ∀ w ∈ v.holdings s, K w

theorem Value.hereditary_exhausted (s : Store) : Hereditary s (Exhausted s) := by
  rintro v ⟨hended, hplaced, hheld⟩
  exact ⟨hended, hplaced, hheld⟩

namespace Value.Hereditary

variable (hK : Hereditary s K)

include hK

theorem ended (hv : K v) (hid : v.id? = some id) : (s.get id).ended = true :=
  (hK v hv).1 id hid

theorem item {id : Nat} {items : List Value} (hv : K (.array id items)) :
    ∀ w ∈ items.take (s.get id).taken, K w := (hK _ hv).2.2

theorem entry (hv : K (.object id pairs)) :
    ∀ p ∈ Relations.tableOf pairs (s.get id).entries, BothIn K p := by
  intro p hp
  have hheld := (hK _ hv).2.2
  exact ⟨hheld p.1 (List.mem_flatMap.2 ⟨p, hp, List.mem_cons_self⟩),
    hheld p.2 (List.mem_flatMap.2 ⟨p, hp, .tail _ (.head _)⟩)⟩

theorem tableIn (hv : K (.object id pairs)) : Relations.TableIn K pairs (s.get id).entries := by
  refine ⟨fun e he p hp => ?_, hK.entry hv⟩
  obtain ⟨q, hpick⟩ := (hK _ hv).2.1 e he
  obtain ⟨k, v⟩ := q
  obtain ⟨⟨w, hkey⟩, -⟩ := Entry.pick_eq hpick
  cases hkey.symm.trans hp
  exact (hK.entry hv (k, v) (List.mem_filterMap.2 ⟨e, he, hpick⟩)).1

/-- **Exhausted values are read side by side** in stores that extend the one in which they are. -/
theorem covers (h₁ : s.Extends s₁) (h₂ : s.Extends s₂) : (side (Store.Pinned s₁ s₂)).Covers K where
  wholeText {_ pieces} hv :=
    .of_ended (f := fun p => (pieces.take p.taken).flatten) (hK.ended hv rfl) h₁ h₂
      (fun _ hu => answers_wholeText hu pieces) trivial
  allItems {_ items} hv :=
    .of_ended (f := fun p => items.take p.taken) (hK.ended hv rfl) h₁ h₂
      (fun _ hu => answers_allItems hu items) (hK.item hv)
  item? {_ items} hv k :=
    .of_ended (f := fun p => (items.take p.taken)[k]?) (hK.ended hv rfl) h₁ h₂
      (fun _ hu => answers_item? hu items k) fun w hw => hK.item hv w (List.mem_of_getElem? hw)
  endItems {_ items} hv :=
    .of_ended (f := Progress.taken) (hK.ended hv rfl) h₁ h₂ (fun _ hu => answers_drain hu items.length) trivial
  table hv := .of_ended (f := fun p => p) (hK.ended hv rfl) h₁ h₂ (fun _ _ => rfl) (hK.tableIn hv)
  takePair? {id pairs} hv R _ := by
    have hread : ∀ u : Store, (u.get id).ended = true → Answers u (R.takePair? id pairs) none :=
      fun u hu => (answers_take? hu _).bind rfl
    exact .of_ended (f := fun _ => none) (hK.ended hv rfl) h₁ h₂ hread trivial

end Value.Hereditary

/-! ### Lines -/

section Lines

variable {Rel : Store → Store → Prop} {t : Terminal} {below : Value → StateM Store Lines}

theorem Lines.ofReading_abreast {r r' : Reading (List Text)} (h : Parallel Rel r r' fun _ => True) :
    Abreast Rel (Lines.ofReading r) (Lines.ofReading r') fun _ => True := by
  refine Abreast.bind h fun e _ => ?_
  cases e with
  | ok lines => exact .pure trivial
  | error f => exact .pure trivial

theorem Lines.andThen_abreast (first : Lines) {second : StateM Store Lines}
    (h : Abreast Rel second second fun _ => True) :
    Abreast Rel (first.andThen second) (first.andThen second) fun _ => True := by
  unfold Lines.andThen
  split
  · exact .pure trivial
  · exact h.bind fun _ _ => .pure trivial

namespace Terminal

theorem items_abreast {vs : List Value} (h : ∀ v ∈ vs, Abreast Rel (below v) (below v) fun _ => True) :
    Abreast Rel (t.items below vs) (t.items below vs) fun _ => True := by
  induction vs with
  | nil => exact .pure trivial
  | cons v vs ih =>
    obtain ⟨hv, hvs⟩ := List.forall_mem_cons.1 h
    cases vs with
    | nil => exact hv.bind fun _ _ => .pure trivial
    | cons w vs => exact hv.bind fun _ _ => Lines.andThen_abreast _ (ih hvs)

theorem entry_abreast (mark : Option Text) {k : Value} (hk : Abreast Rel (below k) (below k) fun _ => True)
    (hv : Abreast Rel (below v) (below v) fun _ => True) :
    Abreast Rel (t.entry below mark k v) (t.entry below mark k v) fun _ => True := by
  refine hk.bind fun key _ => ?_
  split
  · exact .pure trivial
  · exact .pure trivial
  · exact hv.bind fun _ _ => .pure trivial

theorem entries_abreast {es : List (Value × Value)}
    (h : ∀ p ∈ es, Abreast Rel (below p.1) (below p.1) (fun _ => True) ∧
      Abreast Rel (below p.2) (below p.2) fun _ => True) :
    Abreast Rel (t.entries below es) (t.entries below es) fun _ => True := by
  induction es with
  | nil => exact .pure trivial
  | cons p es ih =>
    obtain ⟨⟨hk, hv⟩, hes⟩ := List.forall_mem_cons.1 h
    cases es with
    | nil => exact entry_abreast none hk hv
    | cons q es => exact (entry_abreast _ hk hv).bind fun first _ => first.andThen_abreast (ih hes)

theorem enclosed_abreast (before after : String) (isEmpty : Bool) {inside : StateM Store Lines}
    (h : Abreast Rel inside inside fun _ => True) :
    Abreast Rel (t.enclosed before after isEmpty inside) (t.enclosed before after isEmpty inside)
      fun _ => True := by
  unfold enclosed
  split
  · exact .pure trivial
  · exact (Lines.andThen_abreast _ h).bind fun first _ => first.andThen_abreast (.pure trivial)

/-- The entries of an object in the order of their keys. -/
def sortedEntries (R : Relations) (id : Nat) (pairs : List (Value × Value)) :
    Reading (List (Value × Value)) := do
  let _ ← R.keys id pairs
  sortBy (fun p q => R.less p.1 q.1) (← Relations.taken id pairs)

/-- Objects are shown side by side if their entries are sorted side by side. -/
theorem object_abreast {R : Relations} {id' : Nat} {pairs' : List (Value × Value)}
    (hsorted : Parallel Rel (sortedEntries R id pairs) (sortedEntries R id' pairs')
      fun es => ∀ p ∈ es, Value.BothIn K p)
    (hbelow : ∀ v, K v → Abreast Rel (below v) (below v) fun _ => True) :
    Abreast Rel (t.linesWith R below (.object id pairs)) (t.linesWith R below (.object id' pairs'))
      fun _ => True := by
  refine Abreast.bind hsorted fun e he => ?_
  cases e with
  | error f => exact .pure trivial
  | ok es =>
    refine enclosed_abreast _ _ _ (entries_abreast fun p hp => ?_)
    exact ⟨hbelow p.1 (he es rfl p hp).1, hbelow p.2 (he es rfl p hp).2⟩

/-- The lines are shown side by side, if the parts are. -/
theorem linesWith_abreast (hJ : (side Rel).Covers K) {R : Relations} (hR : R.Obeys (side Rel) K)
    (hbelow : ∀ v, K v → Abreast Rel (below v) (below v) fun _ => True) (hv : K v) :
    Abreast Rel (t.linesWith R below v) (t.linesWith R below v) fun _ => True := by
  cases v with
  | exception e => exact Lines.andThen_abreast _ (.pure trivial)
  | null => exact .pure trivial
  | bool b => exact .pure trivial
  | number id d => exact .pure trivial
  | string id pieces =>
    exact Lines.ofReading_abreast (Parallel.bind (hJ.wholeText hv) fun _ _ => .pure trivial)
  | array id items =>
    have hitems : Parallel Rel _ _ _ := hJ.allItems hv
    refine Abreast.bind hitems fun e he => ?_
    cases e with
    | error f => exact .pure trivial
    | ok vs => exact enclosed_abreast _ _ _ (items_abreast fun w hw => hbelow w (he vs rfl w hw))
  | object id pairs =>
    have hless : ∀ p q : Value × Value, Value.BothIn K p → Value.BothIn K q →
        (side Rel).holds (R.less p.1 q.1) fun _ => True := fun p q hp hq => hR.less _ _ hp.1 hq.1
    refine object_abreast (Parallel.bind (hR.keys hJ hv) fun _ _ => ?_) hbelow
    exact Parallel.bind (Relations.Obeys.taken hJ hv) fun _ hes => sortBy_holds hless hes

/-- **Values are shown side by side.** -/
theorem linesTo_abreast (t : Terminal) (hJ : (side Rel).Covers K) (n : Nat) (hv : K v) :
    Abreast Rel (t.linesTo n v) (t.linesTo n v) fun _ => True := by
  induction n generalizing v with
  | zero => exact linesWith_abreast hJ (hJ.upTo 0) (fun _ _ => .pure trivial) hv
  | succ n ih => exact linesWith_abreast hJ (hJ.upTo n) (fun _ => ih) hv

end Terminal

end Lines

/-! ### Values without signaling not-a-numbers -/

namespace Value

/-- A signaling not-a-number. -/
def isSignaling : Value → Bool
  | .number _ d => d.isSignaling
  | _           => false

/-- An exhausted value in which no signaling not-a-number occurs. -/
def Clear (s : Store) (v : Value) : Prop := Exhausted s v ∧ ¬ v.Occurs s isSignaling

theorem hereditary_clear (s : Store) : Hereditary s (Clear s) := by
  rintro v ⟨⟨hended, hplaced, hheld⟩, hnone⟩
  exact ⟨hended, hplaced, fun w hw => ⟨hheld w hw, fun h => hnone (.inside hw h)⟩⟩

theorem Clear.number {id : Nat} {d : Decimal} (h : Clear s (.number id d)) : d.isSignaling = false :=
  Bool.eq_false_iff.2 fun hd => h.2 (.here hd)

variable {home : Nat → Value}

/-- What is drained is exhausted. -/
theorem Drained.exhausted (h : Drained s home v) : Exhausted s v := by
  induction h with
  | exception | null | bool | number =>
    exact .intro (by rintro _ ⟨⟩) trivial (List.forall_mem_nil _)
  | string hend => exact .intro (by rintro _ ⟨⟩; exact hend) trivial (List.forall_mem_nil _)
  | array hend _ _ ih => exact .intro (by rintro _ ⟨⟩; exact hend) trivial ih
  | object hend _ hentries _ _ _ ihk ihv =>
    refine .intro (by rintro _ ⟨⟩; exact hend) (fun e he => ?_) fun w hw => ?_
    · obtain ⟨k, v, hpick, -⟩ := hentries e he
      exact ⟨(k, v), hpick⟩
    · obtain ⟨p, hp, hw⟩ := List.mem_flatMap.1 hw
      rcases List.mem_cons.1 hw with rfl | hw
      · exact ihk p hp
      · rw [List.mem_singleton.1 hw]
        exact ihv p hp

theorem Drained.clear (h : Drained s home v) : Clear s v := by
  refine ⟨h.exhausted, ?_⟩
  induction h with
  | exception | null | bool | string => exact not_occurs rfl (List.forall_mem_nil _)
  | number h => exact not_occurs (Relations.isSignaling_of_isNaN h) (List.forall_mem_nil _)
  | array _ _ _ ih => exact not_occurs rfl ih
  | object _ _ _ _ _ _ ihk ihv =>
    refine not_occurs rfl fun w hw => ?_
    obtain ⟨p, hp, hw⟩ := List.mem_flatMap.1 hw
    rcases List.mem_cons.1 hw with rfl | hw
    · exact ihk p hp
    · rw [List.mem_singleton.1 hw]
      exact ihv p hp

end Value

namespace Relations

/-- Hashes and equality of the values of a class are always answered. -/
structure Certain (s : Store) (K : Value → Prop) (R : Relations) : Prop where
  hash  : ∀ v, K v → ∃ h, Answers s (R.hash v) h
  equal : ∀ a b, K a → K b → ∃ c, Answers s (R.equal a b) c

namespace Certain

variable {R : Relations} (hR : R.Certain s K)

include hR

theorem alike {a b : Value} (ha : K a) (hb : K b) : ∃ c, Answers s (R.alike a b) c := by
  unfold Relations.alike
  split
  · exact ⟨true, rfl⟩
  · exact hR.equal a b ha hb

theorem hasEntry (h : Nat × Nat) {k : Value} (hk : K k) (hv : K v)
    (hset : ∀ x ∈ set, Value.BothIn K x.2) : ∃ c, Answers s (R.hasEntry h k v set) c := by
  induction set with
  | nil => exact ⟨false, rfl⟩
  | cons x set ih =>
    obtain ⟨h', k', v'⟩ := x
    obtain ⟨⟨hk', hv'⟩, hset⟩ := List.forall_mem_cons.1 hset
    obtain ⟨c, hrest⟩ := ih hset
    obtain ⟨x, hx⟩ := hR.alike hk' hk
    obtain ⟨y, hy⟩ := hR.alike hv' hv
    rw [Relations.hasEntry]
    split
    · cases x with
      | false => exact ⟨c, hx.bind hrest⟩
      | true =>
        cases y with
        | false => exact ⟨c, hx.bind (hy.bind hrest)⟩
        | true => exact ⟨true, hx.bind (hy.bind rfl)⟩
    · exact ⟨c, hrest⟩

theorem hashed {es : List (Value × Value)} (hes : ∀ p ∈ es, Value.BothIn K p) :
    ∃ set, Answers s (R.hashed es) set ∧ ∀ x ∈ set, Value.BothIn K x.2 := by
  have hfold : ∀ es : List (Value × Value), (∀ p ∈ es, Value.BothIn K p) → ∀ set : Hashed,
      (∀ x ∈ set, Value.BothIn K x.2) →
      ∃ set', Answers s (es.foldlM R.addEntry set) set' ∧ ∀ x ∈ set', Value.BothIn K x.2 := by
    intro es
    induction es with
    | nil => exact fun _ set hset => ⟨set, rfl, hset⟩
    | cons p es ih =>
      intro hes set hset
      obtain ⟨hp, hes⟩ := List.forall_mem_cons.1 hes
      obtain ⟨h, hkey⟩ := hR.hash p.1 hp.1
      obtain ⟨h', hvalue⟩ := hR.hash p.2 hp.2
      obtain ⟨c, hfound⟩ := hR.hasEntry (h, h') hp.1 hp.2 hset
      rw [List.foldlM_cons]
      cases c with
      | true =>
        obtain ⟨set', hrest, hset'⟩ := ih hes set hset
        exact ⟨set', Answers.bind (hkey.bind (hvalue.bind (hfound.bind rfl))) hrest, hset'⟩
      | false =>
        obtain ⟨set', hrest, hset'⟩ := ih hes (set ++ [((h, h'), p)])
          (List.forall_mem_append.2 ⟨hset, List.forall_mem_singleton.2 hp⟩)
        exact ⟨set', Answers.bind (hkey.bind (hvalue.bind (hfound.bind rfl))) hrest, hset'⟩
  exact hfold es hes [] (List.forall_mem_nil _)

omit hR in
/-- Whether a set has all the entries, when it is known which it has. -/
theorem answers_subset {set' : Hashed} {has : (Nat × Nat) × Value × Value → Bool}
    (h : ∀ x ∈ set, Answers s (R.hasEntry x.1 x.2.1 x.2.2 set') (has x)) :
    Answers s (R.subset set' set) (set.all has) := by
  induction set with
  | nil => rfl
  | cons x set ih =>
    obtain ⟨hashes, k, v⟩ := x
    obtain ⟨hx, hset⟩ := List.forall_mem_cons.1 h
    have hx : Answers s (R.hasEntry hashes k v set') (has (hashes, k, v)) := hx
    rw [List.all_cons]
    cases hhas : has (hashes, k, v) with
    | true =>
      rw [hhas] at hx
      exact hx.bind (ih hset)
    | false =>
      rw [hhas] at hx
      exact hx.bind rfl

theorem subset {set' : Hashed} (hset : ∀ x ∈ set, Value.BothIn K x.2)
    (hset' : ∀ x ∈ set', Value.BothIn K x.2) : ∃ c, Answers s (R.subset set' set) c := by
  choose! has hhas using fun x (hx : x ∈ set) => hR.hasEntry x.1 (hset x hx).1 (hset x hx).2 hset'
  exact ⟨_, answers_subset hhas⟩

theorem equalItems {xs ys : List Value} (hxs : ∀ x ∈ xs, K x) (hys : ∀ y ∈ ys, K y) :
    ∃ c, Answers s (R.equalItems xs ys) c := by
  induction xs generalizing ys with
  | nil => cases ys <;> exact ⟨_, rfl⟩
  | cons x xs ih =>
    cases ys with
    | nil => exact ⟨_, rfl⟩
    | cons y ys =>
      obtain ⟨hx, hxs⟩ := List.forall_mem_cons.1 hxs
      obtain ⟨hy, hys⟩ := List.forall_mem_cons.1 hys
      obtain ⟨c, hc⟩ := hR.equal x y hx hy
      obtain ⟨d, hd⟩ := ih hxs hys
      cases c with
      | true => exact ⟨d, hc.bind hd⟩
      | false => exact ⟨false, hc.bind rfl⟩

end Certain

variable {R : Relations}

theorem Certain.nextHash (hR : R.Certain s (Value.Clear s)) (hv : v.Clear s) :
    ∃ h, Answers s (R.nextHash v) h := by
  have hK := Value.hereditary_clear s
  cases v with
  | exception | null | bool => exact ⟨_, rfl⟩
  | number id d =>
    rw [Relations.nextHash, numberHash, hv.number]
    exact ⟨_, rfl⟩
  | string id pieces => exact ⟨_, (answers_wholeText (hK.ended hv rfl) pieces).bind rfl⟩
  | array id items =>
    have hitem := answers_item? (hK.ended hv rfl) items 0
    cases hfirst : (items.take (s.get id).taken)[0]? with
    | none =>
      rw [hfirst] at hitem
      exact ⟨_, hitem.bind rfl⟩
    | some w =>
      rw [hfirst] at hitem
      obtain ⟨h, hh⟩ := hR.hash w (hK.item hv w (List.mem_of_getElem? hfirst))
      exact ⟨h, hitem.bind hh⟩
  | object id pairs =>
    choose! g hg using hR.hash
    have hkeys := answers_mapKeys (R := R) (hK.ended hv rfl) pairs fun p hp => hg p.1 (hK.entry hv p hp).1
    exact ⟨_, hkeys.bind rfl⟩

theorem Certain.nextEqual (hR : R.Certain s (Value.Clear s)) {a b : Value} (ha : a.Clear s)
    (hb : b.Clear s) : ∃ c, Answers s (R.nextEqual a b) c := by
  have hK := Value.hereditary_clear s
  unfold Relations.nextEqual
  split
  · exact ⟨_, rfl⟩
  · exact ⟨_, rfl⟩
  · exact ⟨_, rfl⟩
  · rw [equalNumbers, ha.number, hb.number]
    exact ⟨_, rfl⟩
  · exact ⟨_, (answers_wholeText (hK.ended ha rfl) _).bind
      ((answers_wholeText (hK.ended hb rfl) _).bind rfl)⟩
  · obtain ⟨c, hc⟩ := hR.equalItems (hK.item ha) (hK.item hb)
    exact ⟨c, (answers_allItems (hK.ended ha rfl) _).bind
      ((answers_allItems (hK.ended hb rfl) _).bind hc)⟩
  · obtain ⟨set, hset, hin⟩ := hR.hashed (hK.entry ha)
    obtain ⟨set', hset', hin'⟩ := hR.hashed (hK.entry hb)
    obtain ⟨c, hc⟩ := hR.subset hin hin'
    have hlast : ∃ d, Answers s (do
        if set.length ≠ set'.length then return false
        R.subset set' set) d := by
      split
      · exact ⟨false, rfl⟩
      · exact ⟨c, hc⟩
    obtain ⟨d, hd⟩ := hlast
    exact ⟨d, (answers_entries (hK.ended ha rfl) _).bind (hset.bind
      ((answers_entries (hK.ended hb rfl) _).bind (hset'.bind hd)))⟩
  · exact ⟨false, rfl⟩

/-- **Hashes and equality are answered** where no signaling not-a-number is met. -/
theorem below_certain (n : Nat) : (below n).Certain s (Value.Clear s) := by
  induction n with
  | zero => exact ⟨fun _ _ => ⟨0, rfl⟩, fun _ _ _ _ => ⟨false, rfl⟩⟩
  | succ n ih =>
    rw [below, upTo_eq_next]
    exact ⟨fun _ hv => ih.nextHash hv, fun _ _ ha hb => ih.nextEqual ha hb⟩

end Relations

end FilterShell
