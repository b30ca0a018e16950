import FilterShell.Value.Compare

/-!
# What holds of comparing and writing

To compare, hash, sort or write values is to read them, and to decide by what was read what is read next.
So a property that goes through computations step by step (`Discipline`) holds of all this as soon as it holds
of the single reads, for a class `K` of values whose reads give values of the class again
(`Discipline.Covers`).  The relations of one level of nesting obey it if those of the level below do
(`Relations.Obeys.next`).
-/

namespace FilterShell

variable {b key v : Value} {xs ys : List Value}

/-- A property of computations that goes through them step by step.  `holds r P` says that `r` has the
property, and that what it gives satisfies `P` if it does not fail. -/
structure Discipline where
  holds {α : Type} (r : Reading α) (P : α → Prop) : Prop
  pure {α : Type} {P : α → Prop} {a : α} (h : P a) : holds (pure a) P
  throw {α : Type} {P : α → Prop} (f : Fault) : holds (throw f : Reading α) P
  bind {α β : Type} {P : α → Prop} {Q : β → Prop} {r : Reading α} {k : α → Reading β} (hr : holds r P)
    (hk : ∀ a, P a → holds (k a) Q) : holds (r >>= k) Q
  rescue {α : Type} {P : α → Prop} {r : Reading α} {handler : Fault → Reading α} (hr : holds r P)
    (hhandler : ∀ f, holds (handler f) P) : holds (tryCatch r handler) P

variable {α β : Type} {J : Discipline}

namespace Discipline

theorem imp {r : Reading α} {P Q : α → Prop} (hr : J.holds r P) (h : ∀ a, P a → Q a) : J.holds r Q := by
  rw [← bind_pure r]
  exact J.bind hr fun a ha => J.pure (h a ha)

theorem mapM {f : α → Reading β} {P : β → Prop} {xs : List α} (h : ∀ a ∈ xs, J.holds (f a) P) :
    J.holds (xs.mapM f) fun bs => ∀ b ∈ bs, P b := by
  induction xs with
  | nil => exact J.pure (List.forall_mem_nil _)
  | cons a xs ih =>
    obtain ⟨ha, hxs⟩ := List.forall_mem_cons.1 h
    rw [List.mapM_cons]
    refine J.bind ha fun b hb => J.bind (ih hxs) fun bs hbs => ?_
    exact J.pure (List.forall_mem_cons.2 ⟨hb, hbs⟩)

theorem foldlM {f : β → α → Reading β} {P : β → Prop} {xs : List α}
    (h : ∀ b, P b → ∀ a ∈ xs, J.holds (f b a) P) {b : β} (hb : P b) : J.holds (xs.foldlM f b) P := by
  induction xs generalizing b with
  | nil => exact J.pure hb
  | cons a xs ih =>
    rw [List.foldlM_cons]
    refine J.bind (h b hb a List.mem_cons_self) fun c hc => ih (fun b hb a ha => ?_) hc
    exact h b hb a (List.mem_cons_of_mem _ ha)

/-! ### Containers whose progress can be read and noted -/

section Noting

open Reading

variable {id : Nat} (hprogress : J.holds (progress id) fun _ => True)
  (hnote : ∀ p, J.holds (note id p) fun _ => True)

include hprogress hnote

theorem take?_of_note (size : Nat) : J.holds (take? id size) fun _ => True := by
  refine J.bind hprogress fun p _ => ?_
  split
  · exact J.pure trivial
  · split
    · exact J.bind (hnote _) fun _ _ => J.pure trivial
    · split
      · exact J.bind (hnote _) fun _ _ => J.pure trivial
      · exact J.throw _

theorem drain_of_note (size : Nat) : J.holds (drain id size) fun _ => True := by
  refine J.bind hprogress fun p _ => ?_
  split
  · exact J.pure trivial
  · split
    · exact J.bind (hnote _) fun _ _ => J.pure trivial
    · exact J.bind (hnote _) fun _ _ => J.throw _

theorem reach_of_note (size k : Nat) : J.holds (reach id size k) fun _ => True := by
  refine J.bind hprogress fun p _ => ?_
  split
  · exact J.pure trivial
  · split
    · exact J.pure trivial
    · split
      · split
        · exact J.bind (hnote _) fun _ _ => J.pure trivial
        · exact J.bind (hnote _) fun _ _ => J.pure trivial
      · split
        · exact J.bind (hnote _) fun _ _ => J.pure trivial
        · exact J.bind (hnote _) fun _ _ => J.throw _

end Noting

end Discipline

/-! ### Sorting -/

namespace Sorting

variable {less : α → α → Reading Bool} {C : α → Prop}
  (hless : ∀ a b, C a → C b → J.holds (less a b) fun _ => True)

include hless

theorem ascending_holds {x : α} (hx : C x) {xs : List α} (hxs : ∀ y ∈ xs, C y) :
    J.holds (ascending less x xs) fun p => (∀ y ∈ p.1, C y) ∧ ∀ y ∈ p.2, C y := by
  induction xs generalizing x with
  | nil => exact J.pure ⟨List.forall_mem_nil _, List.forall_mem_nil _⟩
  | cons y r ih =>
    obtain ⟨hy, hr⟩ := List.forall_mem_cons.1 hxs
    refine J.bind (hless y x hy hx) fun b _ => ?_
    split
    · exact J.pure ⟨List.forall_mem_nil _, hxs⟩
    · refine J.bind (ih hy hr) fun p hp => ?_
      exact J.pure ⟨List.forall_mem_cons.2 ⟨hy, hp.1⟩, hp.2⟩

theorem descending_holds {x : α} (hx : C x) {xs : List α} (hxs : ∀ y ∈ xs, C y) :
    J.holds (descending less x xs) fun p => (∀ y ∈ p.1, C y) ∧ ∀ y ∈ p.2, C y := by
  induction xs generalizing x with
  | nil => exact J.pure ⟨List.forall_mem_nil _, List.forall_mem_nil _⟩
  | cons y r ih =>
    obtain ⟨hy, hr⟩ := List.forall_mem_cons.1 hxs
    refine J.bind (hless y x hy hx) fun b _ => ?_
    split
    · refine J.bind (ih hy hr) fun p hp => ?_
      exact J.pure ⟨List.forall_mem_cons.2 ⟨hy, hp.1⟩, hp.2⟩
    · exact J.pure ⟨List.forall_mem_nil _, hxs⟩

theorem place_holds {x : α} (hx : C x) {sorted : List α} (hsorted : ∀ y ∈ sorted, C y) (low high : Nat) :
    J.holds (place less x sorted low high) fun _ => True := by
  induction low, high using place.induct sorted with
  | case1 low high hlt middle hnone =>
    rw [place, dif_pos hlt]
    dsimp only
    rw [hnone]
    exact J.pure trivial
  | case2 low high hlt middle y hsome ihlow ihhigh =>
    rw [place, dif_pos hlt]
    dsimp only
    rw [hsome]
    refine J.bind (hless x y hx (hsorted y (List.mem_of_getElem? hsome))) fun b _ => ?_
    split
    · exact ihlow
    · exact ihhigh
  | case3 low high hge =>
    rw [place, dif_neg hge]
    exact J.pure trivial

theorem insert_holds {sorted : List α} (hsorted : ∀ y ∈ sorted, C y) {x : α} (hx : C x) :
    J.holds (Sorting.insert less sorted x) fun ys => ∀ y ∈ ys, C y := by
  refine J.bind (place_holds hless hx hsorted 0 sorted.length) fun i _ => J.pure fun y hy => ?_
  rcases List.mem_append.1 hy with hy | hy
  · exact hsorted y (List.mem_of_mem_take hy)
  · rcases List.mem_cons.1 hy with rfl | hy
    · exact hx
    · exact hsorted y (List.mem_of_mem_drop hy)

end Sorting

/-- To sort is to compare and to move. -/
theorem sortBy_holds {less : α → α → Reading Bool} {C : α → Prop}
    (hless : ∀ a b, C a → C b → J.holds (less a b) fun _ => True) {xs : List α} (hxs : ∀ x ∈ xs, C x) :
    J.holds (sortBy less xs) fun ys => ∀ y ∈ ys, C y := by
  cases xs with
  | nil => exact J.pure hxs
  | cons x xs =>
    cases xs with
    | nil => exact J.pure hxs
    | cons y r =>
      obtain ⟨hx, hxs⟩ := List.forall_mem_cons.1 hxs
      obtain ⟨hy, hr⟩ := List.forall_mem_cons.1 hxs
      -- Whichever run the list begins with, what is behind it is inserted into the run.
      have hrest : ∀ run rest : List α, (∀ z ∈ run, C z) → (∀ z ∈ rest, C z) →
          J.holds (rest.foldlM (Sorting.insert less) run) fun ys => ∀ y ∈ ys, C y := by
        intro run rest hrun hrest
        refine J.foldlM (fun sorted hsorted z hz => ?_) hrun
        exact Sorting.insert_holds hless hsorted (hrest z hz)
      refine J.bind (hless y x hy hx) fun b _ => ?_
      dsimp only
      split
      · refine J.bind (Sorting.descending_holds hless hy hr) fun p hp => hrest _ p.2 ?_ hp.2
        intro z hz
        rw [List.mem_reverse] at hz
        exact List.forall_mem_cons.2 ⟨hx, List.forall_mem_cons.2 ⟨hy, hp.1⟩⟩ z hz
      · refine J.bind (Sorting.ascending_holds hless hy hr) fun p hp => hrest _ p.2 ?_ hp.2
        exact List.forall_mem_cons.2 ⟨hx, List.forall_mem_cons.2 ⟨hy, hp.1⟩⟩

/-! ### Classes of values -/

/-- The relations obey the discipline between values of a class. -/
structure Relations.Obeys (J : Discipline) (K : Value → Prop) (R : Relations) : Prop where
  hash  : ∀ v, K v → J.holds (R.hash v) fun _ => True
  equal : ∀ a b, K a → K b → J.holds (R.equal a b) fun _ => True
  less  : ∀ a b, K a → K b → J.holds (R.less a b) fun _ => True

/-- Both parts of a pair are in a class. -/
def Value.BothIn (K : Value → Prop) (p : Value × Value) : Prop := K p.1 ∧ K p.2

/-- The keys that a table stands for are in a class, and its entries too. -/
def Relations.TableIn (K : Value → Prop) (pairs : List (Value × Value)) (entries : List Entry) : Prop :=
  (∀ e ∈ entries, ∀ p, pairs[e.key]? = some p → K p.1) ∧ ∀ p ∈ tableOf pairs entries, Value.BothIn K p

/-- The containers of a class of values can be read under the discipline, and hold values of the class. -/
structure Discipline.Covers (J : Discipline) (K : Value → Prop) : Prop where
  wholeText : ∀ {id pieces}, K (.string id pieces) → J.holds (Reading.wholeText id pieces) fun _ => True
  allItems : ∀ {id items}, K (.array id items) → J.holds (Reading.allItems id items) fun vs => ∀ v ∈ vs, K v
  item? : ∀ {id items}, K (.array id items) → ∀ k, J.holds (Reading.item? id items k) fun v => ∀ w ∈ v, K w
  endItems : ∀ {id items}, K (.array id items) → J.holds (Reading.drain id items.length) fun _ => True
  table : ∀ {id pairs}, K (.object id pairs) →
    J.holds (Reading.progress id) fun p => Relations.TableIn K pairs p.entries
  takePair? : ∀ {id pairs}, K (.object id pairs) → ∀ {R : Relations}, R.Obeys J K →
    J.holds (R.takePair? id pairs) fun _ => True

namespace Relations

variable {K : Value → Prop} {R : Relations}

/-- If all keys and values of the pairs are in the class, those of every table are. -/
theorem tableIn_of_pairs {pairs : List (Value × Value)} (h : ∀ p ∈ pairs, Value.BothIn K p)
    (entries : List Entry) : TableIn K pairs entries := by
  refine ⟨fun e _ p hp => (h p (List.mem_of_getElem? hp)).1, fun q hq => ?_⟩
  obtain ⟨e, -, he⟩ := List.mem_filterMap.1 hq
  obtain ⟨⟨k, _⟩, hk, he⟩ := Option.bind_eq_some_iff.1 he
  obtain ⟨⟨_, v⟩, hv, he⟩ := Option.bind_eq_some_iff.1 he
  cases he
  exact ⟨(h _ (List.mem_of_getElem? hk)).1, (h _ (List.mem_of_getElem? hv)).2⟩

namespace Obeys

open Reading

variable (hR : R.Obeys J K)

include hR

theorem alike {a : Value} (ha : K a) (hb : K b) : J.holds (R.alike a b) fun _ => True := by
  unfold Relations.alike
  split
  · exact J.pure trivial
  · exact hR.equal a b ha hb

theorem greater {a : Value} (ha : K a) (hb : K b) : J.holds (R.greater a b) fun _ => True := by
  refine J.bind (hR.less a b ha hb) fun c _ => ?_
  split
  · exact J.pure trivial
  · exact J.bind (hR.equal a b ha hb) fun _ _ => J.pure trivial

/-! ### Tables -/

theorem find? {pairs : List (Value × Value)} (hash : Nat) (hkey : K key) {es : List Entry}
    (hes : ∀ e ∈ es, ∀ p, pairs[e.key]? = some p → K p.1) :
    J.holds (R.find? pairs hash key es) fun _ => True := by
  induction es with
  | nil => exact J.pure trivial
  | cons e es ih =>
    obtain ⟨he, hes⟩ := List.forall_mem_cons.1 hes
    have hrest : J.holds (do return (← R.find? pairs hash key es).map (· + 1)) fun _ => True :=
      J.bind (ih hes) fun _ _ => J.pure trivial
    -- The key is compared only if the hashes agree, so the branches meet again behind the comparison.
    have hjoin : ∀ here : Bool, J.holds (if here = true then return some 0 else
        do return (← R.find? pairs hash key es).map (· + 1) : Reading (Option Nat)) fun _ => True := by
      intro here
      split
      · exact J.pure trivial
      · exact hrest
    unfold Relations.find?
    dsimp only
    split
    · rename_i k v hplace
      split
      · exact J.bind (hR.alike (he _ hplace) hkey) fun here _ => hjoin here
      · exact hrest
    · exact hrest

/-- To take a pair is to note it and to hash its key. -/
theorem takePair?_of_note {id : Nat} {pairs : List (Value × Value)} (hkeys : ∀ p ∈ pairs, K p.1)
    (hprogress : J.holds (progress id) fun _ => True) (hnote : ∀ p, J.holds (note id p) fun _ => True) :
    J.holds (R.takePair? id pairs) fun _ => True := by
  have henter : ∀ place, J.holds (R.enter id pairs place) fun _ => True := by
    intro place
    unfold Relations.enter
    split
    · exact J.pure trivial
    · rename_i k v hplace
      have hk : K k := hkeys _ (List.mem_of_getElem? hplace)
      refine J.bind (hR.hash k hk) fun h _ => J.bind hprogress fun p _ => ?_
      refine J.bind (hR.find? h hk fun e _ q hq => hkeys q (List.mem_of_getElem? hq)) fun found _ => ?_
      exact J.bind hprogress fun p _ => hnote _
  refine J.bind (J.take?_of_note hprogress hnote _) fun place _ => ?_
  split
  · exact J.bind (henter _) fun _ _ => J.pure trivial
  · exact J.pure trivial

section Tables

variable (hJ : J.Covers K) {id : Nat} {pairs : List (Value × Value)} (hv : K (.object id pairs))

include hJ hv

theorem takePairs (n : Nat) : J.holds (R.takePairs id pairs n) fun _ => True := by
  induction n with
  | zero => exact J.pure trivial
  | succ n ih =>
    refine J.bind (hJ.takePair? hv hR) fun place _ => ?_
    split
    · exact ih
    · exact J.pure trivial

omit hR in
theorem taken : J.holds (taken id pairs) fun es => ∀ p ∈ es, Value.BothIn K p :=
  J.bind (hJ.table hv) fun _ hp => J.pure hp.2

theorem entries : J.holds (R.entries id pairs) fun es => ∀ p ∈ es, Value.BothIn K p :=
  J.bind (hR.takePairs hJ hv _) fun _ _ => taken hJ hv

/-- The pairs are taken; a bad key ends this. -/
theorem takeSized : J.holds (tryCatch (R.takePairs id pairs (pairs.length + 1)) fun
    | .unhashable => pure ()
    | f           => throw f) fun _ => True := by
  refine J.rescue (hR.takePairs hJ hv _) fun f => ?_
  split
  · exact J.pure trivial
  · exact J.throw f

theorem sizedEntries : J.holds (R.sizedEntries id pairs) fun es => ∀ p ∈ es, Value.BothIn K p :=
  J.bind (hR.takeSized hJ hv) fun _ _ => hR.entries hJ hv

theorem endKeys (n : Nat) : J.holds (R.endKeys id pairs n) fun _ => True := by
  induction n with
  | zero => exact J.pure trivial
  | succ n ih =>
    refine J.bind (hJ.table hv) fun p _ => J.bind (hJ.takePair? hv hR) fun place _ => ?_
    split
    · exact J.pure trivial
    · refine J.bind (hJ.table hv) fun p _ => ?_
      split
      · exact J.throw _
      · exact ih

theorem mapKeys {f : Value → Reading α} {P : α → Prop} (hf : ∀ v, K v → J.holds (f v) P) :
    J.holds (R.mapKeys id pairs f) fun xs => ∀ x ∈ xs, P x := by
  refine J.bind (taken hJ hv) fun es hes => ?_
  refine J.bind (J.mapM fun p hp => hf p.1 (hes p hp).1) fun xs hxs => ?_
  exact J.bind (hR.endKeys hJ hv _) fun _ _ => J.pure hxs

theorem keys : J.holds (R.keys id pairs) fun ks => ∀ k ∈ ks, K k :=
  J.bind (hR.takeSized hJ hv) fun _ _ => hR.mapKeys hJ hv fun _ hk => J.pure hk

theorem lookup? (hkey : K key) :
    J.holds (R.lookup? id pairs key) fun found => ∀ v ∈ found, K v := by
  refine J.bind (hR.takePairs hJ hv _) fun _ _ => J.bind (hR.hash key hkey) fun h _ => ?_
  refine J.bind (hJ.table hv) fun p hp => J.bind (hR.find? h hkey hp.1) fun found _ => ?_
  split
  · exact J.pure (by rintro _ ⟨⟩)
  · refine J.bind (taken hJ hv) fun es hes => J.pure fun v hv => ?_
    obtain ⟨q, hq, rfl⟩ := Option.map_eq_some_iff.1 hv
    exact (hes q (List.mem_of_getElem? hq)).2

theorem lookup (hkey : K key) : J.holds (R.lookup id pairs key) K := by
  refine J.bind (hR.lookup? hJ hv hkey) fun found hfound => ?_
  split
  · exact J.pure (hfound _ rfl)
  · exact J.throw _

end Tables

/-! ### Sets and lists -/

theorem hasEntry (h : Nat × Nat) {k : Value} (hk : K k) (hv : K v) {set : Hashed}
    (hset : ∀ x ∈ set, Value.BothIn K x.2) : J.holds (R.hasEntry h k v set) fun _ => True := by
  induction set with
  | nil => exact J.pure trivial
  | cons x set ih =>
    obtain ⟨h', k', v'⟩ := x
    obtain ⟨⟨hk', hv'⟩, hset⟩ := List.forall_mem_cons.1 hset
    have hrest := ih hset
    unfold Relations.hasEntry
    dsimp only
    split
    · refine J.bind (hR.alike hk' hk) fun b _ => ?_
      split
      · refine J.bind (hR.alike hv' hv) fun b _ => ?_
        split
        · exact J.pure trivial
        · exact hrest
      · exact hrest
    · exact hrest

theorem hashed {es : List (Value × Value)} (hes : ∀ p ∈ es, Value.BothIn K p) :
    J.holds (R.hashed es) fun set => ∀ x ∈ set, Value.BothIn K x.2 := by
  refine J.foldlM (fun set hset p hp => ?_) (List.forall_mem_nil _)
  obtain ⟨hk, hv⟩ := hes p hp
  refine J.bind (hR.hash _ hk) fun h _ => J.bind (hR.hash _ hv) fun h' _ => ?_
  refine J.bind (hR.hasEntry _ hk hv hset) fun b _ => ?_
  split
  · exact J.pure hset
  · refine J.pure fun x hx => ?_
    rcases List.mem_append.1 hx with hx | hx
    · exact hset x hx
    · rw [List.mem_singleton.1 hx]
      exact ⟨hk, hv⟩

theorem subset {set set' : Hashed} (hset : ∀ x ∈ set, Value.BothIn K x.2)
    (hset' : ∀ x ∈ set', Value.BothIn K x.2) : J.holds (R.subset set set') fun _ => True := by
  induction set' with
  | nil => exact J.pure trivial
  | cons x set' ih =>
    obtain ⟨h, k, v⟩ := x
    obtain ⟨⟨hk, hv⟩, hset'⟩ := List.forall_mem_cons.1 hset'
    refine J.bind (hR.hasEntry h hk hv hset) fun b _ => ?_
    split
    · exact ih hset'
    · exact J.pure trivial

theorem equalItems (hxs : ∀ x ∈ xs, K x) (hys : ∀ y ∈ ys, K y) :
    J.holds (R.equalItems xs ys) fun _ => True := by
  induction xs generalizing ys with
  | nil => cases ys <;> exact J.pure trivial
  | cons x xs ih =>
    cases ys with
    | nil => exact J.pure trivial
    | cons y ys =>
      obtain ⟨hx, hxs⟩ := List.forall_mem_cons.1 hxs
      obtain ⟨hy, hys⟩ := List.forall_mem_cons.1 hys
      refine J.bind (hR.equal x y hx hy) fun b _ => ?_
      split
      · exact ih hxs hys
      · exact J.pure trivial

theorem lessItems (hxs : ∀ x ∈ xs, K x) (hys : ∀ y ∈ ys, K y) :
    J.holds (R.lessItems xs ys) fun _ => True := by
  induction xs generalizing ys with
  | nil => cases ys <;> exact J.pure trivial
  | cons x xs ih =>
    cases ys with
    | nil => exact J.pure trivial
    | cons y ys =>
      obtain ⟨hx, hxs⟩ := List.forall_mem_cons.1 hxs
      obtain ⟨hy, hys⟩ := List.forall_mem_cons.1 hys
      refine J.bind (hR.less x y hx hy) fun b _ => ?_
      split
      · exact J.pure trivial
      · refine J.bind (hR.greater hx hy) fun b _ => ?_
        split
        · exact J.pure trivial
        · exact ih hxs hys

theorem difference? (hxs : ∀ x ∈ xs, K x) (hys : ∀ y ∈ ys, K y) :
    J.holds (R.difference? xs ys) fun found => ∀ p ∈ found, Value.BothIn K p := by
  induction xs generalizing ys with
  | nil => exact J.pure (by rintro _ ⟨⟩)
  | cons x xs ih =>
    cases ys with
    | nil => exact J.pure (by rintro _ ⟨⟩)
    | cons y ys =>
      obtain ⟨hx, hxs⟩ := List.forall_mem_cons.1 hxs
      obtain ⟨hy, hys⟩ := List.forall_mem_cons.1 hys
      refine J.bind (hR.alike hx hy) fun b _ => ?_
      split
      · exact ih hxs hys
      · refine J.pure ?_
        rintro _ ⟨⟩
        exact ⟨hx, hy⟩

theorem lessKeys (hxs : ∀ x ∈ xs, K x) (hys : ∀ y ∈ ys, K y) :
    J.holds (R.lessKeys xs ys) fun _ => True := by
  refine J.bind (hR.difference? hxs hys) fun found hfound => ?_
  split
  · exact hR.less _ _ (hfound _ rfl).1 (hfound _ rfl).2
  · exact J.pure trivial

theorem greaterKeys (hxs : ∀ x ∈ xs, K x) (hys : ∀ y ∈ ys, K y) :
    J.holds (R.greaterKeys xs ys) fun _ => True := by
  refine J.bind (hR.difference? hxs hys) fun found hfound => ?_
  split
  · exact hR.greater (hfound _ rfl).1 (hfound _ rfl).2
  · exact J.pure trivial

theorem lessEntry (p q : Value × Value) (hp : Value.BothIn K p) (hq : Value.BothIn K q) :
    J.holds (R.lessEntry p q) fun _ => True := by
  refine J.bind (hR.alike hp.1 hq.1) fun b _ => ?_
  split
  · refine J.bind (hR.alike hp.2 hq.2) fun b _ => ?_
    split
    · exact J.pure trivial
    · exact hR.less _ _ hp.2 hq.2
  · exact hR.less _ _ hp.1 hq.1

section Objects

variable (hJ : J.Covers K) {id id' : Nat} {pairs pairs' : List (Value × Value)} (hv : K (.object id pairs))
  (hv' : K (.object id' pairs'))

include hJ hv hv'

theorem lessByKeys {ks : List Value} (hks : ∀ k ∈ ks, K k) :
    J.holds (R.lessByKeys id pairs id' pairs' ks) fun _ => True := by
  induction ks with
  | nil => exact J.pure trivial
  | cons k ks ih =>
    obtain ⟨hk, hks⟩ := List.forall_mem_cons.1 hks
    refine J.bind (hR.lookup hJ hv hk) fun x hx => J.bind (hR.lookup hJ hv' hk) fun y hy => ?_
    refine J.bind (hR.less x y hx hy) fun b _ => ?_
    split
    · exact J.pure trivial
    · refine J.bind (hR.lookup hJ hv hk) fun x hx => J.bind (hR.lookup hJ hv' hk) fun y hy => ?_
      refine J.bind (hR.greater hx hy) fun b _ => ?_
      split
      · exact J.pure trivial
      · exact ih hks

theorem lessObjects : J.holds (R.lessObjects id pairs id' pairs') fun _ => True := by
  refine J.bind (hR.keys hJ hv) fun ks hks => J.bind (sortBy_holds hR.less hks) fun ks hks => ?_
  refine J.bind (hR.keys hJ hv') fun ks' hks' => J.bind (sortBy_holds hR.less hks') fun ks' hks' => ?_
  refine J.bind (hR.lessKeys hks hks') fun b _ => ?_
  split
  · exact J.pure trivial
  · refine J.bind (hR.greaterKeys hks hks') fun b _ => ?_
    split
    · exact J.pure trivial
    · exact hR.lessByKeys hJ hv hv' hks

theorem equalObjects : J.holds (R.nextEqual (.object id pairs) (.object id' pairs')) fun _ => True := by
  refine J.bind (hR.entries hJ hv) fun es hes => J.bind (hR.hashed hes) fun set hset => ?_
  refine J.bind (hR.entries hJ hv') fun es' hes' => J.bind (hR.hashed hes') fun set' hset' => ?_
  split
  · exact J.pure trivial
  · exact hR.subset hset' hset

end Objects

/-! ### Levels -/

omit hR in
theorem numberHash (id : Nat) (d : Decimal) : J.holds (numberHash id d) fun _ => True := by
  unfold Relations.numberHash
  split
  · exact J.throw _
  · exact J.pure trivial

omit hR in
theorem equalNumbers (a b : Decimal) : J.holds (equalNumbers a b) fun _ => True := by
  unfold Relations.equalNumbers
  split
  · exact J.throw _
  · exact J.pure trivial

omit hR in
theorem lessNumbers (a b : Decimal) : J.holds (lessNumbers a b) fun _ => True := by
  unfold Relations.lessNumbers
  split
  · exact J.throw _
  · exact J.pure trivial

section Levels

variable (hJ : J.Covers K)

include hJ

theorem nextHash (hv : K v) : J.holds (R.nextHash v) fun _ => True := by
  cases v with
  | exception e => exact J.pure trivial
  | null => exact J.pure trivial
  | bool b => exact J.pure trivial
  | number id d => exact numberHash id d
  | string id pieces => exact J.bind (hJ.wholeText hv) fun _ _ => J.pure trivial
  | array id items =>
    refine J.bind (hJ.item? hv 0) fun found hfound => ?_
    split
    · exact hR.hash _ (hfound _ rfl)
    · exact J.pure trivial
  | object id pairs => exact J.bind (hR.mapKeys hJ hv hR.hash) fun _ _ => J.pure trivial

theorem nextEqual {a : Value} (ha : K a) (hb : K b) : J.holds (R.nextEqual a b) fun _ => True := by
  unfold Relations.nextEqual
  split
  · exact J.pure trivial
  · exact J.pure trivial
  · exact J.pure trivial
  · exact equalNumbers _ _
  · exact J.bind (hJ.wholeText ha) fun _ _ => J.bind (hJ.wholeText hb) fun _ _ => J.pure trivial
  · exact J.bind (hJ.allItems ha) fun _ hxs => J.bind (hJ.allItems hb) fun _ hys => hR.equalItems hxs hys
  · exact hR.equalObjects hJ ha hb
  · exact J.pure trivial

theorem nextLess {a : Value} (ha : K a) (hb : K b) : J.holds (R.nextLess a b) fun _ => True := by
  unfold Relations.nextLess
  split
  · exact J.pure trivial
  · exact J.pure trivial
  · exact lessNumbers _ _
  · refine J.bind (hJ.wholeText hb) fun t _ => ?_
    split
    · exact J.pure trivial
    · exact J.bind (hJ.wholeText ha) fun _ _ => J.pure trivial
  · refine J.bind (hJ.allItems hb) fun ys hys => ?_
    split
    · exact J.pure trivial
    · exact J.bind (hJ.allItems ha) fun xs hxs => hR.lessItems hxs hys
  · exact hR.lessObjects hJ ha hb
  · exact J.pure trivial

theorem next : R.next.Obeys J K where
  hash _ := hR.nextHash hJ
  equal _ _ := hR.nextEqual hJ
  less _ _ := hR.nextLess hJ

end Levels

end Obeys

end Relations

/-! ### Whole values -/

namespace Discipline.Covers

open Reading Value

variable {K : Value → Prop} (hJ : J.Covers K)

include hJ

/-- **Comparing and hashing obey the discipline**, at every depth. -/
theorem upTo (n : Nat) : (Relations.upTo n).Obeys J K := by
  induction n with
  | zero =>
    refine Relations.Obeys.next ⟨fun _ _ => ?_, fun _ _ _ _ => ?_, fun _ _ _ _ => ?_⟩ hJ <;>
      exact J.pure trivial
  | succ n ih => exact ih.next hJ

theorem length (hv : K v) : J.holds v.length fun _ => True := by
  cases v with
  | exception e => exact J.throw _
  | null => exact J.throw _
  | bool b => exact J.throw _
  | number id d => exact J.throw _
  | string id pieces => exact J.bind (hJ.wholeText hv) fun _ _ => J.pure trivial
  | array id items => exact J.bind (hJ.allItems hv) fun _ _ => J.pure trivial
  | object id pairs => exact J.bind ((hJ.upTo _).entries hJ hv) fun _ _ => J.pure trivial

theorem mapItems {id : Nat} {items : List Value} (hv : K (.array id items)) {f : Value → Reading α}
    {P : α → Prop} (hf : ∀ v, K v → J.holds (f v) P) :
    J.holds (mapItems id items f) fun xs => ∀ x ∈ xs, P x := by
  have hgo : ∀ n k, J.holds (mapItems.go id items f n k) fun xs => ∀ x ∈ xs, P x := by
    intro n
    induction n with
    | zero => exact fun k => J.bind (hJ.endItems hv) fun _ _ => J.pure (List.forall_mem_nil _)
    | succ n ih =>
      intro k
      refine J.bind (hJ.item? hv k) fun found hfound => ?_
      split
      · exact J.pure (List.forall_mem_nil _)
      · refine J.bind (hf _ (hfound _ rfl)) fun x hx => J.bind (ih (k + 1)) fun xs hxs => ?_
        exact J.pure (List.forall_mem_cons.2 ⟨hx, hxs⟩)
  exact hgo items.length 0

/-- To write a value is to write its parts. -/
theorem textWith {R : Relations} (hR : R.Obeys J K) {below : Value → Reading Text}
    (hbelow : ∀ v, K v → J.holds (below v) fun _ => True) {v : Value} (hv : K v) :
    J.holds (textWith R below v) fun _ => True := by
  cases v with
  | exception e => exact J.pure trivial
  | null => exact J.pure trivial
  | bool b => exact J.pure trivial
  | number id d => exact J.pure trivial
  | string id pieces => exact J.bind (hJ.wholeText hv) fun _ _ => J.pure trivial
  | array id items => exact J.bind (hJ.mapItems hv hbelow) fun _ _ => J.pure trivial
  -- The entries are sorted to be written, so the relations of the level are needed, not only the texts.
  | object id pairs =>
    refine J.bind (hR.sizedEntries hJ hv) fun es hes => J.bind (sortBy_holds hR.lessEntry hes) fun es hes => ?_
    refine J.bind (P := fun ts => ∀ t ∈ ts, True) (J.mapM fun p hp => ?_) fun _ _ => J.pure trivial
    refine J.bind (hbelow p.1 (hes p hp).1) fun _ _ => J.bind (hbelow p.2 (hes p hp).2) fun _ _ => ?_
    exact J.pure trivial

theorem textTo (n : Nat) {v : Value} (hv : K v) : J.holds (textTo n v) fun _ => True := by
  induction n generalizing v with
  | zero => exact hJ.textWith (hJ.upTo 0) (fun _ _ => J.pure trivial) hv
  | succ n ih => exact hJ.textWith (hJ.upTo n) (fun _ hw => ih hw) hv

/-- **Writing obeys the discipline.** -/
theorem text {v : Value} (hv : K v) : J.holds v.text fun _ => True := hJ.textTo v.depth hv

/-! ### Comparing with given data -/

variable {a : Value} (ha : K a) {g : Given} (hg : J.holds g.toValue K) (hgv : ∀ v, g = .value v → K v)

include ha hg hgv

theorem equalGiven : J.holds (a.equalGiven g) fun _ => True := by
  unfold Value.equalGiven
  split
  · exact (hJ.upTo _).equal _ _ ha (hgv _ rfl)
  · exact J.pure trivial
  · exact J.bind hg fun b hb => (hJ.upTo _).equal _ _ ha hb

theorem lessGiven : J.holds (a.lessGiven g) fun _ => True := by
  unfold Value.lessGiven
  split
  · exact (hJ.upTo _).less _ _ ha (hgv _ rfl)
  · exact J.pure trivial
  · exact J.bind hg fun b hb => (hJ.upTo _).less _ _ ha hb

theorem notEqualGiven : J.holds (a.notEqualGiven g) fun _ => True := by
  unfold Value.notEqualGiven
  split
  · split
    · exact J.bind (Relations.Obeys.equalNumbers _ _) fun _ _ => J.pure trivial
    · exact J.pure trivial
  · exact J.bind (hJ.equalGiven ha hg hgv) fun _ _ => J.pure trivial

/-- **Comparing with given data obeys the discipline.** -/
theorem compareGiven (c : Comparison) : J.holds (a.compareGiven c g) fun _ => True := by
  have hless := hJ.lessGiven ha hg hgv
  cases c with
  | equal => exact hJ.equalGiven ha hg hgv
  | notEqual => exact hJ.notEqualGiven ha hg hgv
  | less => exact hless
  | greater =>
    refine J.bind hless fun b _ => ?_
    split
    · exact J.pure trivial
    · exact hJ.notEqualGiven ha hg hgv
  | lessOrEqual =>
    refine J.bind hless fun b _ => ?_
    split
    · exact J.pure trivial
    · exact hJ.equalGiven ha hg hgv
  | greaterOrEqual => exact J.bind hless fun _ _ => J.pure trivial

end Discipline.Covers

end FilterShell
