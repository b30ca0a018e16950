import FilterShell.Proofs.Value.Order
import FilterShell.Value.Search
import Mathlib.Data.Set.Card

/-!
# Objects as finite maps

An object that has been read to its end is a finite map up to equality (`Value.object_finiteMap`): it has
one entry for every class of equal keys, with the last value, and the keys are listed in the order of their
first appearance.  This rests on equal values having equal hashes.
-/

namespace FilterShell

/-! ### Classes -/

section Classes

variable {α β κ : Type}

/-- The second list has the first element of every class in the first list, by appearance. -/
inductive Firsts (same : α → α → Prop) : List α → List α → Prop
  | nil : Firsts same [] []
  | known {xs ks : List α} {x : α} (h : Firsts same xs ks) (hx : ∃ k ∈ ks, same k x) :
      Firsts same (xs ++ [x]) ks
  | new {xs ks : List α} {x : α} (h : Firsts same xs ks) (hx : ∀ k ∈ ks, ¬ same k x) :
      Firsts same (xs ++ [x]) (ks ++ [x])

/-- The classes of the elements of a list. -/
def classes (same : α → α → Prop) (xs : List α) : Set (Set α) :=
  {c | ∃ x ∈ xs, c = {y | y ∈ xs ∧ same x y}}

variable [DecidableEq κ] {key : α → κ} {same : α → α → Prop} {pairs : List (α × β)}

namespace Table

/-- **The keys of a table** are the first of their classes. -/
theorem firsts_keys (h : ∀ p ∈ pairs, ∀ q ∈ pairs, same p.1 q.1 ↔ key p.1 = key q.1) :
    Firsts same (pairs.map Prod.fst) ((ofPairs key pairs).map Prod.fst) := by
  induction pairs using List.reverseRecOn with
  | nil => exact .nil
  | append_singleton pairs p ih =>
    have hfront : ∀ q ∈ pairs, q ∈ pairs ++ [p] := fun q hq => List.mem_append_left _ hq
    have hlast : p ∈ pairs ++ [p] := List.mem_append_right _ List.mem_cons_self
    have hrest := ih fun q hq r hr => h q (hfront q hq) r (hfront r hr)
    -- the keys in the table are keys of pairs
    have hsame : ∀ q ∈ ofPairs key pairs, same q.1 p.1 ↔ key q.1 = key p.1 := by
      intro q hq
      obtain ⟨⟨r, hr, hkey⟩, -⟩ := mem_ofPairs hq
      rw [hkey]
      exact h r (hfront r hr) p hlast
    rw [List.map_append, ofPairs_concat]
    by_cases hknown : ∃ q ∈ ofPairs key pairs, key q.1 = key p.1
    · rw [keys_entered_known hknown]
      obtain ⟨q, hq, heq⟩ := hknown
      exact .known hrest ⟨q.1, List.mem_map_of_mem hq, (hsame q hq).2 heq⟩
    · rw [entered_new fun q hq heq => hknown ⟨q, hq, heq⟩, List.map_append]
      refine .new hrest fun k hk hkp => hknown ?_
      obtain ⟨q, hq, rfl⟩ := List.mem_map.1 hk
      exact ⟨q, hq, (hsame q hq).1 hkp⟩

/-- **The number of entries** of a table is the number of classes. -/
theorem ncard_classes (h : ∀ p ∈ pairs, ∀ q ∈ pairs, same p.1 q.1 ↔ key p.1 = key q.1) :
    (classes same (pairs.map Prod.fst)).ncard = (ofPairs key pairs).length := by
  set keys := (ofPairs key pairs).map fun p => key p.1 with hkeys
  let members : κ → Set α := fun c => {y | y ∈ pairs.map Prod.fst ∧ key y = c}
  have hmem : ∀ c, c ∈ keys ↔ ∃ p ∈ pairs, key p.1 = c := fun c => by
    rw [← mem_classes, hkeys, List.mem_map]
  have hclass : ∀ p ∈ pairs, {y | y ∈ pairs.map Prod.fst ∧ same p.1 y} = members (key p.1) := by
    intro p hp
    ext y
    refine and_congr_right fun hy => ?_
    obtain ⟨q, hq, rfl⟩ := List.mem_map.1 hy
    rw [h p hp q hq, eq_comm]
  have himage : classes same (pairs.map Prod.fst) = members '' {c | c ∈ keys} := by
    ext c
    constructor
    · rintro ⟨x, hx, rfl⟩
      obtain ⟨p, hp, rfl⟩ := List.mem_map.1 hx
      exact ⟨key p.1, (hmem _).2 ⟨p, hp, rfl⟩, (hclass p hp).symm⟩
    · rintro ⟨c, hc, rfl⟩
      obtain ⟨p, hp, rfl⟩ := (hmem c).1 hc
      exact ⟨p.1, List.mem_map_of_mem hp, (hclass p hp).symm⟩
  have hinj : Set.InjOn members {c | c ∈ keys} := by
    intro c hc d _ heq
    obtain ⟨p, hp, rfl⟩ := (hmem c).1 hc
    have hp' : p.1 ∈ members (key p.1) := ⟨List.mem_map_of_mem hp, rfl⟩
    exact (heq ▸ hp').2
  have hcard : {c | c ∈ keys} = (keys.toFinset : Set κ) := by
    ext c
    simp
  rw [himage, hinj.ncard_image, hcard, Set.ncard_coe_finset,
    List.toFinset_card_of_nodup (nodup_ofPairs pairs), List.length_map]

/-- The last pair of a class has the value that is found first from the end. -/
theorem find?_reverse_split {front back : List (α × β)} {p : α × β}
    (hback : ∀ q ∈ back, key q.1 ≠ key p.1) :
    find? key (front ++ p :: back).reverse (key p.1) = some p.2 := by
  have hnone : back.reverse.find? (fun q => key q.1 = key p.1) = none := by simpa using hback
  rw [find?, List.reverse_append, List.reverse_cons, List.append_assoc, List.find?_append, hnone]
  simp

theorem find?_eq_none {c : κ} : find? key pairs.reverse c = none ↔ ∀ p ∈ pairs, key p.1 ≠ c := by
  simp [find?]

end Table

end Classes

namespace Value

open Reading

variable {s : Store} {home : Nat → Value} {id : Nat} {pairs : List (Value × Value)}

/-- An object of these pairs is a finite map up to equality; the store stays as it is. -/
structure FiniteMap (s : Store) (home : Nat → Value) (id : Nat) (pairs : List (Value × Value)) :
    Prop where
  /-- Under a key is the value of the last pair with an equal key. -/
  last : ∀ {k}, Drained s home k → ∀ {front p back}, pairs = front ++ p :: back →
    Holds s .equal p.1 k → (∀ q ∈ back, ¬ Holds s .equal q.1 k) →
    Answers s ((object id pairs).itemGiven (.value k)) (.value p.2)
  /-- There is nothing under a key that equals no key of a pair, and under no other. -/
  missing : ∀ {k}, Drained s home k →
    (Fails s ((object id pairs).itemGiven (.value k)) .noKey s ↔
      ∀ p ∈ pairs, ¬ Holds s .equal p.1 k)
  /-- There are as many entries as classes of equal keys. -/
  length : Answers s (object id pairs).length (classes (Holds s .equal) (pairs.map Prod.fst)).ncard
  /-- The keys are listed by first appearance, each as it was pushed first. -/
  keys : ∃ ks, Firsts (Holds s .equal) (pairs.map Prod.fst) ks ∧
    Answers s ((object id pairs).relations.keys id pairs) ks ∧
    Answers s ((object id pairs).visit none) (ks.map .value)
  /-- Equal values have equal hashes. -/
  hash : ∀ {a b}, Drained s home a → Drained s home b → Holds s .equal a b →
    ∃ h, Answers s a.hash h ∧ Answers s b.hash h

/-! ### Objects at their end -/

section Ended

variable (hkeys : ∀ p ∈ pairs, Drained s home p.1)
  (hreached : Relations.Reached s (SettledTo s home (depthPairs pairs + 1)) pairs (pairs.length + 1)
    (s.get id))

include hreached

/-- What is found under a key is the last value of its class. -/
theorem answers_lookupGiven? {k : Value} (hk : Drained s home k) :
    Answers s ((object id pairs).lookupGiven? (.value k))
      (Table.find? (standing s) pairs.reverse (k.standing s)) := by
  obtain ⟨hended, htable⟩ := hreached.whole (Nat.lt_succ_self _)
  have hkey : Answers s (Given.value k).key? (some k) := rfl
  set level := max (depthPairs pairs) k.depth with hlevel
  have hagrees : (Relations.upTo level).Agrees s (SettledTo s home (level + 1)) :=
    Relations.upTo_agrees level
  have hindex : Relations.Indexed s (SettledTo s home (level + 1)) pairs (s.get id).entries :=
    hreached.index.transfer fun v hv => ⟨hv.mono (by omega), rfl⟩
  have hfound := hagrees.lookup? hended hindex (hk.settledTo.mono (by omega))
  rw [htable] at hfound
  refine (Relations.answers_takePairs hended pairs _).bind (hkey.bind ?_)
  rw [← Table.find?_ofPairs]
  exact hfound

include hkeys

/-- **An object at its end is a finite map.** -/
theorem finiteMap_of_reached : FiniteMap s home id pairs := by
  obtain ⟨hended, htable⟩ := hreached.whole (Nat.lt_succ_self _)
  have hsame : ∀ p ∈ pairs, ∀ q ∈ pairs, Holds s .equal p.1 q.1 ↔ p.1.standing s = q.1.standing s :=
    fun p hp q hq => holds_equal (hkeys p hp) (hkeys q hq)
  have hkeyList := Relations.answers_keys hended pairs (R := (object id pairs).relations)
  rw [htable] at hkeyList
  constructor
  case last =>
    rintro k hk front p back rfl hp hback
    obtain ⟨-, hrest⟩ := List.forall_mem_append.1 hkeys
    obtain ⟨hDp, hDback⟩ := List.forall_mem_cons.1 hrest
    have hstand : p.1.standing s = k.standing s := (holds_equal hDp hk).1 hp
    have hlookup := answers_lookupGiven? hreached hk
    rw [← hstand, Table.find?_reverse_split fun q hq heq =>
      hback q hq ((holds_equal (hDback q hq) hk).2 (heq.trans hstand))] at hlookup
    exact hlookup.bind rfl
  case missing =>
    intro k hk
    have hlookup := answers_lookupGiven? hreached hk
    have hnone : Table.find? (standing s) pairs.reverse (k.standing s) = none ↔
        ∀ p ∈ pairs, ¬ Holds s .equal p.1 k := by
      rw [Table.find?_eq_none]
      exact forall₂_congr fun p hp => (not_congr (holds_equal (hkeys p hp) hk)).symm
    rw [← hnone]
    constructor
    · intro hfails
      cases hfind : Table.find? (standing s) pairs.reverse (k.standing s) with
      | none => rfl
      | some v =>
        rw [hfind] at hlookup
        have hitem : Answers s ((object id pairs).itemGiven (.value k)) (.value v) :=
          hlookup.bind rfl
        cases hitem.symm.trans hfails
    · intro hfind
      rw [hfind] at hlookup
      exact Gives.bind_fails hlookup rfl
  case length =>
    have hentries := Relations.answers_entries hended pairs (R := (object id pairs).relations)
    rw [htable] at hentries
    rw [Table.ncard_classes hsame]
    exact hentries.bind rfl
  case keys =>
    refine ⟨_, Table.firsts_keys hsame, hkeyList, ?_⟩
    have htaken : Answers s (Relations.taken id pairs) (Table.ofPairs (standing s) pairs) := by
      rw [← htable]
      rfl
    have hlist := Relations.answers_mapKeys (R := (object id pairs).relations) (g := fun k => k)
      hended pairs fun p _ => answers_return p.1
    rw [htable] at hlist
    exact htaken.bind (hlist.bind rfl)
  case hash =>
    intro a b ha hb hab
    refine ⟨_, answers_hash ha, ?_⟩
    rw [(holds_equal ha hb).1 hab]
    exact answers_hash hb

end Ended

/-- **Objects are finite maps**: however far an object of drained keys has been read, taking all of it
leaves a finite map up to equality. -/
theorem object_finiteMap (hunread : (s.get id).Unread pairs.length)
    (hkeys : ∀ p ∈ pairs, Drained s home p.1) (m : Nat) :
    ∃ s₁ s', Gives s ((object id pairs).relations.takePairs id pairs m) () s₁ ∧
      Gives s₁ (object id pairs).length (classes (Holds s' .equal) (pairs.map Prod.fst)).ncard s' ∧
      FiniteMap s' home id pairs := by
  have hsettled : ∀ p ∈ pairs, SettledTo s home (depthPairs pairs + 1) p.1 := fun p hp =>
    (hkeys p hp).settledTo.mono ((depth_pair hp).1.trans (Nat.le_succ _))
  have hR : (Relations.upTo (depthPairs pairs)).Steady s (SettledTo s home (depthPairs pairs + 1)) :=
    Relations.upTo_steady _
  obtain ⟨s₁, hpopped, hread₁, hreached₁⟩ := hR.takePairs hsettled m (fun _ _ => rfl)
    (Relations.reached_zero hunread)
  obtain ⟨s', hentries, hread, hreached⟩ := hR.entries hsettled hread₁.extend hreached₁
  have hext : s.Extends s' := hread₁.extend.trans hread.extend
  have hreached' := hreached.transfer hsettled fun v hv => hv.extends hext
  have hmap := finiteMap_of_reached (fun p hp => ((hkeys p hp).extends hext).1) hreached'
  refine ⟨s₁, s', hpopped, ?_, hmap⟩
  have hagain : Answers s' (object id pairs).length (Table.ofPairs (standing s) pairs).length := by
    obtain ⟨hended, htable⟩ := hreached.whole (Nat.lt_succ_self _)
    rw [← htable]
    exact (Relations.answers_entries hended pairs).bind rfl
  rw [hmap.length.unique hagain]
  exact Gives.bind hentries rfl

/-- Two keys are arrays of one number that is written in two ways, and one value has not been read. -/
theorem object_finiteMap_arrays :
    let short : Value := .array 1 [.number 0 (.finite false 1 0)]
    let long : Value := .array 2 [.number 0 (.finite false 10 (-1))]
    let pairs : List (Value × Value) := [(short, .null), (.null, short), (long, .string 3 ["x"])]
    let home : Nat → Value := fun i => if i = 1 then short else long
    let s : Store := { progress := [(1, { taken := 1, ended := true }), (2, { taken := 1, ended := true })] }
    (s.get 4).Unread pairs.length ∧ (∀ p ∈ pairs, Drained s home p.1) ∧
      ∃ s₁ s', Gives s ((object 4 pairs).relations.takePairs 4 pairs 2) () s₁ ∧
        Gives s₁ (object 4 pairs).length (classes (Holds s' .equal) (pairs.map Prod.fst)).ncard s' ∧
        FiniteMap s' home 4 pairs := by
  intro short long pairs home s
  have hunread : (s.get 4).Unread pairs.length := ⟨rfl, rfl, rfl, rfl⟩
  have hshort : Drained s home short := by
    refine .array rfl rfl ?_
    rintro v (_ | ⟨_, ⟨⟩⟩)
    exact .number rfl
  have hlong : Drained s home long := by
    refine .array rfl rfl ?_
    rintro v (_ | ⟨_, ⟨⟩⟩)
    exact .number rfl
  have hkeys : ∀ p ∈ pairs, Drained s home p.1 := by
    simp only [pairs, List.forall_mem_cons]
    exact ⟨hshort, .null, hlong, List.forall_mem_nil _⟩
  exact ⟨hunread, hkeys, object_finiteMap hunread hkeys 2⟩

end Value

end FilterShell
