import FilterShell.Proofs.Decimal.Value
import FilterShell.Proofs.Value.LexTree
import FilterShell.Value.Relations
import Mathlib.Data.Prod.Lex

/-!
# Where values stand

Every value has a standing in a linear order, made of what a store says has been read of it: a tree whose head
holds the kind of the value, its text and its number.  An array has the standings of its items below it; an
object has those of its keys in order, and those of their values.  The hash of a value is a function of its
standing (`Standing.hash`).
-/

namespace FilterShell

variable {k : Value.Kind} {t t' : List ℕ} {q q' : WithBot (WithTop ℚ)}

/-- The numbers of the characters of a text. -/
def Text.codes (t : Text) : List ℕ := t.map Rune.code

theorem Text.codes_inj {t u : Text} : t.codes = u.codes ↔ t = u := by
  refine ⟨fun h => ?_, fun h => h ▸ rfl⟩
  refine List.map_injective_iff.2 (fun a b hab => ?_) h
  cases a
  cases b
  cases hab
  rfl

theorem Text.codes_cons (r : Rune) (t : Text) : Text.codes (r :: t) = r.code :: t.codes := rfl

theorem Text.lt_eq : ∀ t u : Text, t.lt u = decide (t.codes < u.codes)
  | t, [] => by simp [Text.lt, Text.codes]
  | [], _ :: _ => by simp [Text.lt, Text.codes]
  | a :: t, b :: u => by
    rw [Text.lt, Text.lt_eq t u, codes_cons, codes_cons, Bool.eq_iff_iff, Bool.or_eq_true,
      Bool.and_eq_true, decide_eq_true_iff, decide_eq_true_iff, decide_eq_true_iff, beq_iff_eq,
      List.cons_lt_cons_iff]

/-- A place in the order of values. -/
abbrev Standing := LexTree (ℕ ×ₗ List ℕ ×ₗ WithBot (WithTop ℚ))

namespace Standing

/-- The head of a standing. -/
def head (kind : Value.Kind) (text : List ℕ := []) (number : WithBot (WithTop ℚ) := ⊥) :
    ℕ ×ₗ List ℕ ×ₗ WithBot (WithTop ℚ) :=
  toLex (kind.rank, toLex (text, number))

/-- The standing of a value that holds no others. -/
def flat (kind : Value.Kind) (text : List ℕ := []) (number : WithBot (WithTop ℚ) := ⊥) : Standing :=
  .node (head kind text number) [] []

/-- The standing of an array. -/
def array (items : List Standing) : Standing := .node (head .array) items []

/-- A table in the order of its keys. -/
def sorted (table : List (Standing × Standing)) : List (Standing × Standing) :=
  table.mergeSort fun p q => p.1 ≤ q.1

/-- The standing of an object with these keys and values. -/
def object (table : List (Standing × Standing)) : Standing :=
  .node (head .object) ((sorted table).map Prod.fst) ((sorted table).map Prod.snd)

/-- The hash of a text with these characters. -/
def textHash (codes : List ℕ) : Nat :=
  codes.foldl (fun h c => (h * 1114113 + c + 1) % Decimal.modulus) 0

mutual

/-- The hash of a value that stands here. -/
def hash : Standing → Nat
  | .node h first _ =>
    let (rank, rest) := ofLex h
    let (text, number) := ofLex rest
    match rank with
    | 0 => textHash text
    | 1 => Relations.nullHash
    | 2 => text.headD 0
    | 3 => Decimal.valueResidue number
    | 4 => textHash text
    | 5 => (hashes first).headD Relations.emptyHash
    | _ => (hashes first).foldl (· ^^^ ·) 0

def hashes : List Standing → List Nat
  | []     => []
  | x :: r => x.hash :: hashes r

end

/-! ### Comparing standings -/

theorem head_lt {k' : Value.Kind} : head k t q < head k' t' q' ↔
      k.rank < k'.rank ∨ k.rank = k'.rank ∧ (t < t' ∨ t = t' ∧ q < q') := by
  rw [head, head, Prod.Lex.toLex_lt_toLex, Prod.Lex.toLex_lt_toLex]

theorem head_inj {k' : Value.Kind} :
    head k t q = head k' t' q' ↔ k.rank = k'.rank ∧ t = t' ∧ q = q' := by
  rw [head, head, toLex_inj, Prod.mk.injEq, toLex_inj, Prod.mk.injEq]

theorem flat_lt : flat k t q < flat k t' q' ↔ t < t' ∨ t = t' ∧ q < q' := by
  simp [flat, LexTree.node_lt_node, head_lt]

theorem flat_inj : flat k t q = flat k t' q' ↔ t = t' ∧ q = q' := by
  simp [flat, head_inj]

theorem array_lt {xs ys : List Standing} : array xs < array ys ↔ xs < ys := by
  simp [array, LexTree.node_lt_node]

theorem array_inj {xs ys : List Standing} : array xs = array ys ↔ xs = ys := by
  simp [array]

/-! ### Tables -/

section Table

variable {P Q : List (Standing × Standing)}

theorem sorted_perm (P : List (Standing × Standing)) : (sorted P).Perm P := List.mergeSort_perm _ _

theorem sorted_pairwise (P : List (Standing × Standing)) :
    (sorted P).Pairwise fun p q => p.1 ≤ q.1 := by
  refine (List.pairwise_mergeSort (fun p q r hpq hqr => ?_) (fun p q => ?_) P).imp of_decide_eq_true
  · simp only [decide_eq_true_eq] at hpq hqr ⊢
    exact hpq.trans hqr
  · simpa using le_total p.1 q.1

/-- Sorted keys are the keys of the sorted table. -/
theorem eq_keys_sorted {ks : List Standing} (hperm : ks.Perm (P.map Prod.fst))
    (hks : ks.Pairwise (· ≤ ·)) : ks = (sorted P).map Prod.fst := by
  refine List.Perm.eq_of_pairwise (fun a b _ _ => le_antisymm) hks ?_
    (hperm.trans ((sorted_perm P).map Prod.fst).symm)
  exact List.pairwise_map.2 (sorted_pairwise P)

theorem sorted_eq_iff (hP : (P.map Prod.fst).Nodup) : sorted P = sorted Q ↔ P.Perm Q := by
  refine ⟨fun h => (sorted_perm P).symm.trans (h ▸ sorted_perm Q), fun h => ?_⟩
  refine List.Perm.eq_of_pairwise (fun p q hp hq hpq hqp => ?_) (sorted_pairwise P)
    (sorted_pairwise Q) ((sorted_perm P).trans (h.trans (sorted_perm Q).symm))
  exact List.inj_on_of_nodup_map hP ((sorted_perm P).mem_iff.1 hp)
    (h.mem_iff.2 ((sorted_perm Q).mem_iff.1 hq)) (le_antisymm hpq hqp)

/-- Tables of one size, each entry of one in the other, are the same up to their order. -/
theorem perm_iff_subset (hP : (P.map Prod.fst).Nodup) :
    P.Perm Q ↔ P.length = Q.length ∧ ∀ p ∈ P, p ∈ Q := by
  refine ⟨fun h => ⟨h.length_eq, fun p => h.mem_iff.1⟩, fun ⟨hlength, hsub⟩ => ?_⟩
  exact (List.subperm_of_subset (.of_map _ hP) hsub).perm_of_length_le hlength.ge

/-- Objects stand at one place if they have as many entries and every entry of one is in the other. -/
theorem object_inj (hP : (P.map Prod.fst).Nodup) :
    object P = object Q ↔ P.length = Q.length ∧ ∀ p ∈ P, p ∈ Q := by
  rw [← perm_iff_subset hP, ← sorted_eq_iff hP, object, object, LexTree.node.injEq]
  refine ⟨fun ⟨_, hfst, hsnd⟩ => ?_, fun h => ⟨rfl, h ▸ rfl, h ▸ rfl⟩⟩
  rw [← List.zip_unzip (sorted P), ← List.zip_unzip (sorted Q), List.unzip_eq_map,
    List.unzip_eq_map, hfst, hsnd]

theorem object_lt : object P < object Q ↔
    (sorted P).map Prod.fst < (sorted Q).map Prod.fst ∨
      (sorted P).map Prod.fst = (sorted Q).map Prod.fst ∧
        (sorted P).map Prod.snd < (sorted Q).map Prod.snd := by
  simp [object, LexTree.node_lt_node]

end Table

/-! ### Hashes -/

theorem hashes_eq (xs : List Standing) : hashes xs = xs.map hash := by
  induction xs with
  | nil => rfl
  | cons x r ih => rw [hashes, ih, List.map_cons]

theorem textHash_codes (t : Text) : textHash t.codes = t.hash := by
  rw [textHash, Text.codes, List.foldl_map, Text.hash]

theorem hash_array (xs : List Standing) :
    (array xs).hash = (xs.map hash).headD Relations.emptyHash := by
  rw [← hashes_eq]
  rfl

theorem hash_object (P : List (Standing × Standing)) :
    (object P).hash = (P.map fun p => p.1.hash).foldl (· ^^^ ·) 0 := by
  have hrun : (object P).hash = (hashes ((sorted P).map Prod.fst)).foldl (· ^^^ ·) 0 := rfl
  have hcomm : RightCommutative fun a b : Nat => a ^^^ b :=
    ⟨fun a b c => by rw [Nat.xor_assoc, Nat.xor_comm b c, ← Nat.xor_assoc]⟩
  rw [hrun, hashes_eq, List.map_map]
  exact ((sorted_perm P).map _).foldl_eq 0

end Standing

/-- The key and the value that an entry of a table points to. -/
def Entry.pick {α β : Type} (pairs : List (α × β)) (e : Entry) : Option (α × β) := do
  let (k, _) ← pairs[e.key]?
  let (_, v) ← pairs[e.value]?
  return (k, v)

theorem Entry.pick_eq {α β : Type} {pairs : List (α × β)} {e : Entry} {k : α} {v : β}
    (h : e.pick pairs = some (k, v)) :
    (∃ w, pairs[e.key]? = some (k, w)) ∧ ∃ w, pairs[e.value]? = some (w, v) := by
  obtain ⟨⟨k', w⟩, hkey, h⟩ := Option.bind_eq_some_iff.1 h
  obtain ⟨⟨w', v'⟩, hvalue, h⟩ := Option.bind_eq_some_iff.1 h
  cases h
  exact ⟨⟨w, hkey⟩, w', hvalue⟩

mutual

/-- Where a value stands, by what has been read of it. -/
def Value.standing (s : Store) : Value → Standing
  | .exception e      => .flat .exception e.name.codes
  | .null             => .flat .null
  | .bool b           => .flat .bool [b.toNat]
  | .number _ d       => .flat .number [] d.value
  | .string id pieces => .flat .string (Text.codes (pieces.take (s.get id).taken).flatten)
  | .array id items   => .array ((standings s items).take (s.get id).taken)
  | .object id pairs  => .object ((s.get id).entries.filterMap (Entry.pick (pairStandings s pairs)))

def Value.standings (s : Store) : List Value → List Standing
  | []     => []
  | v :: r => v.standing s :: standings s r

def Value.pairStandings (s : Store) : List (Value × Value) → List (Standing × Standing)
  | []          => []
  | (k, v) :: r => (k.standing s, v.standing s) :: pairStandings s r

end

namespace Value

variable (s : Store)

theorem standings_eq (vs : List Value) : standings s vs = vs.map (standing s) := by
  induction vs with
  | nil => rfl
  | cons v r ih => rw [standings, ih, List.map_cons]

/-- The standings of a key and a value. -/
def pairStanding (p : Value × Value) : Standing × Standing := (p.1.standing s, p.2.standing s)

theorem pairStandings_eq (pairs : List (Value × Value)) :
    pairStandings s pairs = pairs.map (pairStanding s) := by
  induction pairs with
  | nil => rfl
  | cons p r ih => rw [pairStandings, ih, List.map_cons, pairStanding]

theorem standing_array (id : Nat) (items : List Value) : (Value.array id items).standing s =
    .array ((items.take (s.get id).taken).map (standing s)) := by
  rw [standing, standings_eq, List.map_take]

theorem standing_object (id : Nat) (pairs : List (Value × Value)) :
    (Value.object id pairs).standing s =
      .object ((Relations.tableOf pairs (s.get id).entries).map (pairStanding s)) := by
  rw [standing, pairStandings_eq, Relations.tableOf, List.map_filterMap]
  congr 1
  refine List.filterMap_congr fun e _ => ?_
  simp only [Entry.pick, List.getElem?_map]
  cases pairs[e.key]? <;> cases pairs[e.value]? <;> rfl

/-- The head of a standing names the kind. -/
theorem standing_eq_node (v : Value) :
    ∃ t q xs ys, v.standing s = .node (Standing.head v.kind t q) xs ys := by
  cases v <;> exact ⟨_, _, _, _, rfl⟩

theorem rank_injective {k k' : Kind} (h : k.rank = k'.rank) : k = k' := by
  cases k <;> cases k' <;> first | rfl | cases h

/-- Values of different kinds stand in the order of the kinds. -/
theorem standing_lt_of_kind {a b : Value} (h : a.kind ≠ b.kind) :
    (a.standing s < b.standing s ↔ a.kind.rank < b.kind.rank) ∧ a.standing s ≠ b.standing s := by
  obtain ⟨t, q, xs, ys, ha⟩ := standing_eq_node s a
  obtain ⟨t', q', xs', ys', hb⟩ := standing_eq_node s b
  have hrank : a.kind.rank ≠ b.kind.rank := fun hr => h (rank_injective hr)
  rw [ha, hb, LexTree.node_lt_node, Standing.head_lt, Standing.head_inj, ne_eq, LexTree.node.injEq,
    Standing.head_inj]
  simp [hrank]

end Value

end FilterShell
