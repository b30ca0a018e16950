import FilterShell.Proofs.Value.Drained
import FilterShell.Value.Datum
import Mathlib.Data.List.Forall2
import Mathlib.Data.List.Induction

/-!
# What a complete value holds

A value that is complete holds what was put into it: `Value.content`.  The pairs of an object may repeat
a key, which then keeps its first place and gets its last value: `merged`.

The containers of a value are *at home* if no two of them share an identity, and a store is *ready* for
them if each is unread or has been read to its end.  Then reading the value to the end gives its content
and leaves a ready store (`settleTo_reads`).
-/

namespace FilterShell

variable {v : Value} {k : Text}

/-! ### Members with repeated keys -/

section Merged

variable {α β : Type}

/-- Each key with the value that `last` has for it. -/
def valued (last : Text → Option α) (keys : List Text) : List (Text × α) :=
  keys.filterMap fun k => (last k).map (k, ·)

/-- One member for each key: a repeated key keeps its first place and gets its last value. -/
def merged (members : List (Text × α)) : List (Text × α) :=
  valued (fun k => members.reverse.lookup k) (members.map (·.1)).eraseDups

theorem eraseDups_concat (keys : List Text) (k : Text) :
    (keys ++ [k]).eraseDups = if k ∈ keys then keys.eraseDups else keys.eraseDups ++ [k] := by
  rw [List.eraseDups_append]
  by_cases hk : k ∈ keys
  · simp [hk, List.removeAll]
  · simp [hk, List.removeAll, List.eraseDups_cons]

theorem nodup_eraseDups (keys : List Text) : keys.eraseDups.Nodup := by
  induction keys using List.reverseRecOn with
  | nil => exact List.nodup_nil
  | append_singleton keys k ih =>
    rw [eraseDups_concat]
    by_cases hk : k ∈ keys
    · rwa [if_pos hk]
    · rw [if_neg hk]
      exact ih.append (List.nodup_singleton k) (by simpa using hk)

theorem valued_congr {last last' : Text → Option α} {keys : List Text}
    (h : ∀ k ∈ keys, last k = last' k) : valued last keys = valued last' keys :=
  List.filterMap_congr fun k hk => by rw [h k hk]

/-- A key that is there gets a new value in its place. -/
theorem valued_update {last : Text → Option α} {keys : List Text} (hkeys : keys.Nodup)
    (hlast : ∀ k ∈ keys, (last k).isSome) (hk : k ∈ keys) (v : α) :
    ∃ i, (valued last keys).findIdx? (·.1 = k) = some i ∧
      valued (fun k' => if k' = k then some v else last k') keys =
        (valued last keys).modify i fun m => (m.1, v) := by
  induction keys with
  | nil => cases hk
  | cons k₀ keys ih =>
    obtain ⟨hnew, hkeys⟩ := List.nodup_cons.1 hkeys
    obtain ⟨hlast₀, hlast⟩ := List.forall_mem_cons.1 hlast
    obtain ⟨v₀, hv₀⟩ := Option.isSome_iff_exists.1 hlast₀
    have hold : valued last (k₀ :: keys) = (k₀, v₀) :: valued last keys :=
      List.filterMap_cons_some (by rw [hv₀]; rfl)
    rw [hold]
    by_cases hk₀ : k₀ = k
    · subst hk₀
      have hrest : valued (fun k' => if k' = k₀ then some v else last k') keys =
          valued last keys :=
        valued_congr fun k' hk' => if_neg fun (h : k' = k₀) => hnew (h ▸ hk')
      refine ⟨0, by simp [List.findIdx?_cons], ?_⟩
      rw [List.modify_zero_cons, ← hrest]
      exact List.filterMap_cons_some (by simp)
    · obtain ⟨i, hfind, hvalued⟩ := ih hkeys hlast ((List.mem_cons.1 hk).resolve_left (Ne.symm hk₀))
      refine ⟨i + 1, by simp [List.findIdx?_cons, hk₀, hfind], ?_⟩
      rw [List.modify_succ_cons, ← hvalued]
      exact List.filterMap_cons_some (by simp [hk₀, hv₀])

/-- Every key has a last value. -/
theorem last_isSome {members : List (Text × α)} :
    ∀ k ∈ (members.map (·.1)).eraseDups, (members.reverse.lookup k).isSome := by
  intro k hk
  obtain ⟨m, hm, rfl⟩ := List.mem_map.1 (List.mem_eraseDups.1 hk)
  exact List.lookup_isSome_iff.2 ⟨m, List.mem_reverse.2 hm, beq_self_eq_true _⟩

theorem last_concat (members : List (Text × α)) (k : Text) (v : α) (k' : Text) :
    (members ++ [(k, v)]).reverse.lookup k' =
      if k' = k then some v else members.reverse.lookup k' := by
  rw [List.reverse_append, List.reverse_singleton, List.singleton_append, List.lookup_cons]
  by_cases hk : k' = k
  · simp [hk]
  · simp [hk, beq_eq_false_iff_ne.2 hk]

theorem merged_keys (members : List (Text × α)) :
    (merged members).map (·.1) = (members.map (·.1)).eraseDups := by
  have hkey : ∀ k ∈ (members.map (·.1)).eraseDups,
      ((members.reverse.lookup k).map (k, ·)).map (·.1) = some k := by
    intro k hk
    obtain ⟨v, hv⟩ := Option.isSome_iff_exists.1 (last_isSome k hk)
    rw [hv]
    rfl
  rw [merged, valued, List.map_filterMap, List.filterMap_congr hkey, List.filterMap_some]

/-- **A member with a known key** gives its value to the place of the key. -/
theorem merged_concat_known {members : List (Text × α)} (hk : k ∈ members.map (·.1)) (v : α) :
    ∃ i, (merged members).findIdx? (·.1 = k) = some i ∧
      merged (members ++ [(k, v)]) = (merged members).modify i fun m => (m.1, v) := by
  obtain ⟨i, hfind, hvalued⟩ :=
    valued_update (nodup_eraseDups _) last_isSome (List.mem_eraseDups.2 hk) v
  refine ⟨i, hfind, Eq.trans ?_ hvalued⟩
  rw [merged, List.map_append, List.map_singleton, eraseDups_concat, if_pos hk]
  exact valued_congr fun k' _ => last_concat members k v k'

/-- **A member with a new key** goes to the end. -/
theorem merged_concat_new {members : List (Text × α)} (hk : k ∉ members.map (·.1)) (v : α) :
    (merged members).findIdx? (·.1 = k) = none ∧
      merged (members ++ [(k, v)]) = merged members ++ [(k, v)] := by
  have hkeys : k ∉ (merged members).map (·.1) := by
    rwa [merged_keys, List.mem_eraseDups]
  constructor
  · rw [List.findIdx?_eq_none_iff]
    intro m hm
    exact decide_eq_false fun h => hkeys (h ▸ List.mem_map_of_mem hm)
  · have hold : valued (fun k' => (members ++ [(k, v)]).reverse.lookup k')
        (members.map (·.1)).eraseDups = merged members := valued_congr fun k' hk' => by
      rw [last_concat, if_neg]
      rintro rfl
      exact hk (List.mem_eraseDups.1 hk')
    have hlast : valued (fun k' => (members ++ [(k, v)]).reverse.lookup k') [k] = [(k, v)] :=
      List.filterMap_cons_some (by dsimp only; rw [last_concat, if_pos rfl]; rfl)
    rw [merged, List.map_append, List.map_singleton, eraseDups_concat, if_neg hk, valued,
      List.filterMap_append]
    exact congrArg₂ (· ++ ·) hold hlast

theorem mem_of_mem_merged {members : List (Text × α)} {m : Text × α} (h : m ∈ merged members) :
    m ∈ members := by
  obtain ⟨k, -, hk⟩ := List.mem_filterMap.1 h
  obtain ⟨v, hv, rfl⟩ := Option.map_eq_some_iff.1 hk
  obtain ⟨before, after, hsplit, -⟩ := List.lookup_eq_some_iff.1 hv
  have hmem : (k, v) ∈ members.reverse := hsplit ▸ List.mem_append_right before List.mem_cons_self
  exact List.mem_reverse.1 hmem

/-- Members whose keys differ are left as they are. -/
theorem merged_of_nodup {members : List (Text × α)} (h : (members.map (·.1)).Nodup) :
    merged members = members := by
  induction members using List.reverseRecOn with
  | nil => rfl
  | append_singleton members m ih =>
    rw [List.map_append, List.map_singleton, List.nodup_append] at h
    obtain ⟨hmembers, -, hnew⟩ := h
    have hk : m.1 ∉ members.map (·.1) := fun hk => hnew _ hk _ (List.mem_singleton_self _) rfl
    rw [(merged_concat_new hk m.2).2, ih hmembers]

theorem lookup_map (f : α → β) (members : List (Text × α)) (k : Text) :
    (members.map fun m => (m.1, f m.2)).lookup k = (members.lookup k).map f := by
  induction members with
  | nil => rfl
  | cons m members ih =>
    rw [List.map_cons, List.lookup_cons, List.lookup_cons, ih]
    cases k == m.1 <;> rfl

/-- To merge keeps to the keys, whatever the values are. -/
theorem merged_map (f : α → β) (members : List (Text × α)) :
    merged (members.map fun m => (m.1, f m.2)) = (merged members).map fun m => (m.1, f m.2) := by
  rw [merged, merged, valued, valued, List.map_filterMap, List.map_map, ← List.map_reverse]
  refine List.filterMap_congr fun k _ => ?_
  rw [lookup_map, Option.map_map, Option.map_map]
  rfl

end Merged

/-- The entries that members make. -/
def Datum.record (members : List (Text × Datum)) : List (Datum × Datum) :=
  (merged members).map fun m => (.text m.1, m.2)

namespace Value

/-- The text of a key that is a string. -/
def keyText : Value → Text
  | .string _ pieces => pieces.flatten
  | _                => []

/-- A container is not null. -/
theorem ne_null {i : Nat} (h : v.id? = some i) : v ≠ .null := by
  rintro rfl
  cases h

mutual

/-- What a complete value holds, if all its keys are strings. -/
def content : Value → Datum
  | .exception e      => .exception e
  | .null             => .null
  | .bool b           => .bool b
  | .number _ d       => .number d
  | .string _ pieces  => .text pieces.flatten
  | .array _ items    => .list (contents items)
  | .object _ pairs   => .object (Datum.record (members pairs))

def contents : List Value → List Datum
  | []     => []
  | v :: r => v.content :: contents r

def members : List (Value × Value) → List (Text × Datum)
  | []          => []
  | (k, v) :: r => (k.keyText, v.content) :: members r

end

theorem contents_eq (items : List Value) : contents items = items.map content := by
  induction items with
  | nil => rfl
  | cons v r ih => rw [contents, ih, List.map_cons]

theorem members_eq (pairs : List (Value × Value)) :
    members pairs = pairs.map fun p => (p.1.keyText, p.2.content) := by
  induction pairs with
  | nil => rfl
  | cons p r ih => rw [members, ih, List.map_cons]

/-- All keys are strings at home. -/
def Keyed (home : Nat → Value) (pairs : List (Value × Value)) : Prop :=
  ∀ p ∈ pairs, ∃ i pieces, p.1 = .string i pieces ∧ home i = .string i pieces

/-- Every container in the value is at home under its identity, and all keys are strings. -/
inductive Housed (home : Nat → Value) : Value → Prop
  | null : Housed home .null
  | bool (b : Bool) : Housed home (.bool b)
  | number (id : Nat) (d : Decimal) : Housed home (.number id d)
  | string {id : Nat} {pieces : List Text} (hhome : home id = .string id pieces) :
      Housed home (.string id pieces)
  | array {id : Nat} {items : List Value} (hhome : home id = .array id items)
      (hitems : ∀ v ∈ items, Housed home v) : Housed home (.array id items)
  | object {id : Nat} {pairs : List (Value × Value)} (hhome : home id = .object id pairs)
      (hkeys : Keyed home pairs) (hvalues : ∀ p ∈ pairs, Housed home p.2) : Housed home (.object id pairs)

end Value

/-! ### Ready stores -/

/-- The pairs of an object as members. -/
def pairMembers (pairs : List (Value × Value)) : List (Text × Value) :=
  pairs.map fun p => (p.1.keyText, p.2)

/-- An entry stands for a member. -/
def Entry.Row (pairs : List (Value × Value)) (e : Entry) (m : Text × Value) : Prop :=
  e.hash = m.1.hash ∧ ∃ k, e.pick pairs = some (k, m.2) ∧ k.keyText = m.1

/-- A container is unread or has been read to its end. -/
def Progress.Fits (p : Progress) : Value → Prop
  | .string _ pieces => p = {} ∨ p = { taken := pieces.length, ended := true }
  | .array _ items   => p = {} ∨ p = { taken := items.length, ended := true }
  | .object _ pairs  => p = {} ∨ ∃ entries, p = { taken := pairs.length, ended := true, entries } ∧
      List.Forall₂ (Entry.Row pairs) entries (merged (pairMembers pairs))
  | _                => True

/-- All containers at home are unread or have been read to their ends. -/
def Ready (home : Nat → Value) (s : Store) : Prop := ∀ i, (s.get i).Fits (home i)

/-- A container that is not at home may be read. -/
theorem Ready.put {home : Nat → Value} {s : Store} {id : Nat} (h : Ready home s)
    (hid : home id = .null) (p : Progress) : Ready home (s.put id p) := by
  intro i
  rw [Store.get_put]
  by_cases hi : i = id
  · rw [hi, hid]
    trivial
  · rw [if_neg hi]
    exact h i

/-- From every ready store the computation gives the result and leaves a ready store; containers that
are not at home are not read. -/
def Reads (home : Nat → Value) {α : Type} (r : Reading α) (x : α) : Prop :=
  ∀ s, Ready home s → ∃ s', Reading.Gives s r x s' ∧ Ready home s' ∧
    ∀ i, home i = .null → s'.get i = s.get i

namespace Reads

open Reading

variable {home : Nat → Value} {α β : Type}

theorem pure (x : α) : Reads home (return x) x := fun s hs => ⟨s, rfl, hs, fun _ _ => rfl⟩

theorem bind {r : Reading α} {f : α → Reading β} {x : α} {y : β} (hr : Reads home r x)
    (hf : Reads home (f x) y) : Reads home (r >>= f) y := by
  intro s hs
  obtain ⟨s₁, hgives₁, hs₁, hkept₁⟩ := hr s hs
  obtain ⟨s₂, hgives₂, hs₂, hkept₂⟩ := hf s₁ hs₁
  exact ⟨s₂, hgives₁.bind hgives₂, hs₂, fun i hi => (hkept₂ i hi).trans (hkept₁ i hi)⟩

theorem mapM {f : α → Reading β} {g : α → β} {xs : List α}
    (h : ∀ x ∈ xs, Reads home (f x) (g x)) : Reads home (xs.mapM f) (xs.map g) := by
  induction xs with
  | nil => exact pure []
  | cons x xs ih =>
    obtain ⟨hx, hxs⟩ := List.forall_mem_cons.1 h
    rw [List.mapM_cons]
    exact hx.bind ((ih hxs).bind (pure _))

/-- It is enough to look at one container if no other is read. -/
theorem of_sameBut {r : Reading α} {x : α} (id : Nat) (hhome : (home id).id? = some id)
    (h : ∀ s, (s.get id).Fits (home id) → ∃ s', Gives s r x s' ∧ s.SameBut id s' ∧
      (s'.get id).Fits (home id)) : Reads home r x := by
  intro s hs
  obtain ⟨s', hgives, hsame, hfits⟩ := h s (hs id)
  refine ⟨s', hgives, fun i => ?_, fun i hi => ?_⟩
  · by_cases hi : i = id
    · rwa [hi]
    · rw [hsame i hi]
      exact hs i
  · refine hsame i fun h => Value.ne_null hhome ?_
    rwa [← h]

/-! ### Strings and arrays -/

theorem drain_fits {s : Store} {id size : Nat}
    (h : s.get id = {} ∨ s.get id = { taken := size, ended := true }) :
    ∃ s', Gives s (drain id size) size s' ∧ s.SameBut id s' ∧
      s'.get id = { taken := size, ended := true } := by
  rcases h with hunread | hended
  · exact drain_gives hunread size
  · have hend : (s.get id).ended = true := by rw [hended]
    have hdrain := answers_drain hend size
    rw [hended] at hdrain
    exact ⟨s, hdrain, fun _ _ => rfl, hended⟩

/-- A container without a table is read by taking all its parts. -/
theorem drained {id : Nat} {xs : List α} (hid : (home id).id? = some id)
    (hfits : ∀ p : Progress,
      p.Fits (home id) ↔ p = {} ∨ p = { taken := xs.length, ended := true }) (f : List α → β) :
    Reads home (do return f (xs.take (← drain id xs.length))) (f xs) := by
  refine of_sameBut id hid fun s hs => ?_
  obtain ⟨s', hdrain, hsame, hget⟩ := drain_fits ((hfits _).1 hs)
  exact ⟨s', hdrain.bind (by rw [List.take_length]; rfl), hsame, (hfits _).2 (.inr hget)⟩

theorem wholeText {id : Nat} {pieces : List Text} (hhome : home id = .string id pieces) :
    Reads home (wholeText id pieces) pieces.flatten :=
  drained (by rw [hhome]; rfl) (fun p => by rw [hhome]; rfl) List.flatten

theorem allItems {id : Nat} {items : List Value} (hhome : home id = .array id items) :
    Reads home (allItems id items) items :=
  drained (by rw [hhome]; rfl) (fun p => by rw [hhome]; rfl) fun taken => taken

/-! ### Objects -/

section Keys

variable {i j : Nat} {p q : List Text} (hi : home i = .string i p) (hj : home j = .string j q)

include hi

theorem hash (n : Nat) : Reads home ((Relations.upTo n).hash (.string i p)) (Text.hash p.flatten) := by
  have hread : Reads home (do return (← Reading.wholeText i p).hash) (Text.hash p.flatten) :=
    (wholeText hi).bind (pure _)
  cases n with
  | zero => exact hread
  | succ n => exact hread

include hj

/-- Strings are alike if their texts are equal. -/
theorem alike (n : Nat) :
    Reads home ((Relations.upTo n).alike (.string i p) (.string j q))
      (decide (p.flatten = q.flatten)) := by
  rw [Relations.alike]
  by_cases hij : i = j
  · subst hij
    obtain ⟨-, rfl⟩ := Value.string.inj (hi.symm.trans hj)
    rw [if_pos (by simp [Value.same, Value.id?]), decide_eq_true rfl]
    exact pure true
  · rw [if_neg (by simpa [Value.same, Value.id?] using hij)]
    have hread : Reads home
        (do return decide ((← Reading.wholeText i p) = (← Reading.wholeText j q)))
        (decide (p.flatten = q.flatten)) :=
      (wholeText hi).bind ((wholeText hj).bind (pure _))
    cases n with
    | zero => exact hread
    | succ n => exact hread

end Keys

/-- A key is found where the member of its text is. -/
theorem find? {pairs : List (Value × Value)} (hkeys : Value.Keyed home pairs) {k : Nat}
    {q : List Text} (hk : home k = .string k q) {entries : List Entry}
    {ms : List (Text × Value)} (hrows : List.Forall₂ (Entry.Row pairs) entries ms) (n : Nat) :
    Reads home ((Relations.upTo n).find? pairs (Text.hash q.flatten) (.string k q) entries)
      (ms.findIdx? (·.1 = q.flatten)) := by
  induction hrows with
  | nil => exact pure none
  | @cons e m entries ms hrow _ ih =>
    obtain ⟨hhash, key, hpick, htext⟩ := hrow
    obtain ⟨⟨w, hkey⟩, -⟩ := Entry.pick_eq hpick
    obtain ⟨i, p, rfl, hi⟩ := hkeys _ (List.mem_of_getElem? hkey)
    have htext : p.flatten = m.1 := htext
    rw [Relations.find?, hkey, List.findIdx?_cons]
    dsimp only
    have hnext : Reads home (do return (← (Relations.upTo n).find? pairs
        (Text.hash q.flatten) (.string k q) entries).map (· + 1))
        ((ms.findIdx? (·.1 = q.flatten)).map (· + 1)) := bind ih (pure _)
    by_cases hm : m.1 = q.flatten
    · rw [if_pos (hhash.trans (congrArg Text.hash hm)), if_pos (decide_eq_true hm)]
      refine bind (alike hi hk n) ?_
      rw [htext, if_pos (decide_eq_true hm)]
      exact pure (some 0)
    · have hno : ¬ decide (m.1 = q.flatten) = true := by simpa using hm
      rw [if_neg hno]
      -- another text may have the same hash
      by_cases hsame : e.hash = Text.hash q.flatten
      · rw [if_pos hsame]
        refine bind (alike hi hk n) ?_
        rw [htext, if_neg hno]
        exact hnext
      · rw [if_neg hsame]
        exact hnext

end Reads

namespace Relations

open Reading

variable {home : Nat → Value} {s : Store} {id place n : Nat} {pairs : List (Value × Value)}
  {entries : List Entry} {ms : List (Text × Value)}

/-- A value is replaced in the table as in the members. -/
theorem rows_modify {k : Value} (hplace : pairs[place]? = some (k, v))
    (h : List.Forall₂ (Entry.Row pairs) entries ms) (i : Nat) :
    List.Forall₂ (Entry.Row pairs) (entries.modify i fun e => { e with value := place })
      (ms.modify i fun m => (m.1, v)) := by
  induction h generalizing i with
  | nil => simp
  | cons hrow hrest ih =>
    cases i with
    | zero =>
      obtain ⟨hhash, key, hpick, htext⟩ := hrow
      rw [List.modify_zero_cons, List.modify_zero_cons]
      exact .cons ⟨hhash, key, pick_modify hplace hpick, htext⟩ hrest
    | succ i =>
      rw [List.modify_succ_cons, List.modify_succ_cons]
      exact .cons hrow (ih i)

theorem rows_concat {k : Value} (hplace : pairs[place]? = some (k, v))
    (h : List.Forall₂ (Entry.Row pairs) entries ms) :
    List.Forall₂ (Entry.Row pairs) (entries ++ [⟨k.keyText.hash, place, place⟩])
      (ms ++ [(k.keyText, v)]) := by
  refine List.rel_append h (.cons ⟨rfl, k, ?_, rfl⟩ .nil)
  simp [Entry.pick, hplace]

/-- **A pair that is taken goes into the table as its member goes among the members.** -/
theorem enter_gives_row (hkeys : Value.Keyed home pairs)
    (hid : home id = .null) (hs : Ready home s) (hget : s.get id = { taken := place + 1, entries })
    (hplace : place < pairs.length)
    (hrows : List.Forall₂ (Entry.Row pairs) entries (merged ((pairMembers pairs).take place))) :
    ∃ s' entries', Gives s ((upTo n).enter id pairs place) () s' ∧ Ready home s' ∧
      s'.get id = { taken := place + 1, entries := entries' } ∧
      List.Forall₂ (Entry.Row pairs) entries' (merged ((pairMembers pairs).take (place + 1))) ∧
      ∀ i, home i = .null → i ≠ id → s'.get i = s.get i := by
  have hpair := List.getElem?_eq_getElem hplace
  obtain ⟨k, q, hkey, hk⟩ := hkeys _ (List.getElem_mem hplace)
  generalize pairs[place] = pair at hpair hkey
  obtain ⟨key, v⟩ := pair
  obtain rfl : key = .string k q := hkey
  have hmembers : (pairMembers pairs).take (place + 1) =
      (pairMembers pairs).take place ++ [(q.flatten, v)] := by
    rw [List.take_add_one, pairMembers, List.getElem?_map, hpair]
    rfl
  -- hashing and searching read only keys, so the table is as it was
  obtain ⟨s₁, hhash, hs₁, hkept₁⟩ := Reads.hash hk n s hs
  obtain ⟨s₂, hfind, hs₂, hkept₂⟩ := Reads.find? hkeys hk hrows n s₁ hs₁
  have hget₁ : s₁.get id = { taken := place + 1, entries } := (hkept₁ id hid).trans hget
  have hget₂ : s₂.get id = { taken := place + 1, entries } := (hkept₂ id hid).trans hget₁
  have hprogress₁ : Answers s₁ (progress id) { taken := place + 1, entries } := by
    rw [← hget₁]
    rfl
  have hprogress₂ : Answers s₂ (progress id) { taken := place + 1, entries } := by
    rw [← hget₂]
    rfl
  have hrest : ∀ p i, home i = .null → i ≠ id → (s₂.put id p).get i = s.get i := by
    intro p i hi hne
    rw [Store.get_put, if_neg hne, hkept₂ i hi, hkept₁ i hi]
  rw [enter, hpair, hmembers]
  by_cases hold : q.flatten ∈ ((pairMembers pairs).take place).map (·.1)
  · obtain ⟨i, hi, hmerged⟩ := merged_concat_known hold v
    rw [hi] at hfind
    rw [hmerged]
    refine ⟨_, _, ?_, hs₂.put hid _, Store.get_put_self _ _ _, rows_modify hpair hrows i,
      hrest _⟩
    exact Gives.bind hhash (Gives.bind hprogress₁ (Gives.bind hfind (Gives.bind hprogress₂ rfl)))
  · obtain ⟨hi, hmerged⟩ := merged_concat_new hold v
    rw [hi] at hfind
    rw [hmerged]
    refine ⟨_, _, ?_, hs₂.put hid _, Store.get_put_self _ _ _, rows_concat hpair hrows,
      hrest _⟩
    exact Gives.bind hhash (Gives.bind hprogress₁ (Gives.bind hfind (Gives.bind hprogress₂ rfl)))

/-- **Taking all pairs makes the table of the merged members.** -/
theorem takePairs_gives_rows (hkeys : Value.Keyed home pairs)
    (hid : home id = .null) (m : Nat) :
    ∀ {s : Store} {place : Nat} {entries : List Entry}, Ready home s →
      s.get id = { taken := place, entries } → place ≤ pairs.length → pairs.length - place < m →
      List.Forall₂ (Entry.Row pairs) entries (merged ((pairMembers pairs).take place)) →
      ∃ s' entries', Gives s ((upTo n).takePairs id pairs m) () s' ∧ Ready home s' ∧
        s'.get id = { taken := pairs.length, ended := true, entries := entries' } ∧
        List.Forall₂ (Entry.Row pairs) entries' (merged (pairMembers pairs)) ∧
        ∀ i, home i = .null → i ≠ id → s'.get i = s.get i := by
  induction m with
  | zero =>
    intro s place entries _ _ _ hm
    exact absurd hm (Nat.not_lt_zero _)
  | succ m ih =>
    intro s place entries hs hget hplace hm hrows
    by_cases hend : place = pairs.length
    · subst hend
      have hlast : Gives s (take? id pairs.length) none
          (s.put id ((s.get id).atEnd (s.get id).taken)) :=
        take?_end (by rw [hget]) (by rw [hget]; rfl)
      rw [hget] at hlast
      refine ⟨_, entries, Gives.bind (Gives.bind hlast rfl) rfl, hs.put hid _,
        Store.get_put_self _ _ _, ?_, fun i _ hi => ?_⟩
      · rwa [List.take_of_length_le (by simp [pairMembers])] at hrows
      · rw [Store.get_put, if_neg hi]
    · have hlt : place < pairs.length := lt_of_le_of_ne hplace hend
      have hnext : Gives s (take? id pairs.length) (some (s.get id).taken)
          (s.put id { s.get id with taken := (s.get id).taken + 1 }) :=
        take?_next (by rw [hget]) (by rw [hget]; rfl) (by rw [hget]; exact hlt) le_rfl
      rw [hget] at hnext
      obtain ⟨s₂, entries₂, henter, hs₂, hget₂, hrows₂, hrest₂⟩ :=
        enter_gives_row hkeys hid (hs.put hid _) (Store.get_put_self _ _ _) hlt hrows
      obtain ⟨s₃, entries₃, htake, hs₃, hget₃, hrows₃, hrest₃⟩ :=
        ih hs₂ hget₂ hlt (by omega) hrows₂
      refine ⟨s₃, entries₃, Gives.bind (Gives.bind hnext (Gives.bind henter rfl)) htake, hs₃,
        hget₃, hrows₃, fun i hi hne => ?_⟩
      rw [hrest₃ i hi hne, hrest₂ i hi hne, Store.get_put, if_neg hne]

/-- The table that rows make holds the members. -/
theorem tableOf_rows (h : List.Forall₂ (Entry.Row pairs) entries ms) :
    (tableOf pairs entries).map (fun p => (p.1.keyText, p.2)) = ms := by
  induction h with
  | nil => rfl
  | cons hrow _ ih =>
    obtain ⟨-, key, hpick, htext⟩ := hrow
    rw [tableOf_cons hpick, List.map_cons, ih, htext]

/-- **The entries of an object are its merged members.** -/
theorem entries_gives_merged (hkeys : Value.Keyed home pairs)
    (hhome : home id = .object id pairs) (hs : Ready home s) :
    ∃ s' entries, Gives s ((upTo n).entries id pairs) (tableOf pairs entries) s' ∧ Ready home s' ∧
      (tableOf pairs entries).map (fun p => (p.1.keyText, p.2)) = merged (pairMembers pairs) ∧
      ∀ i, home i = .null → s'.get i = s.get i := by
  have hfits : (s.get id).Fits (.object id pairs) := hhome ▸ hs id
  rcases hfits with hunread | ⟨entries, hget, hrows⟩
  · -- while its pairs are taken, the object itself is not at home
    have haside : ∀ i, i ≠ id → Function.update home id .null i = home i := fun i hi =>
      Function.update_of_ne hi _ _
    have hkeys' : Value.Keyed (Function.update home id .null) pairs := by
      intro p hp
      obtain ⟨i, pieces, hkey, hi⟩ := hkeys p hp
      refine ⟨i, pieces, hkey, ?_⟩
      rw [haside i, hi]
      rintro rfl
      cases hi.symm.trans hhome
    have hs' : Ready (Function.update home id .null) s := by
      intro i
      by_cases hi : i = id
      · rw [hi, Function.update_self]
        trivial
      · rw [haside i hi]
        exact hs i
    obtain ⟨s', entries, htake, hready, hget, hrows, hrest⟩ := takePairs_gives_rows hkeys'
      (Function.update_self _ _ _) (pairs.length + 1) hs' hunread (Nat.zero_le _) (by omega) .nil
    refine ⟨s', entries, Gives.bind htake ?_, fun i => ?_, tableOf_rows hrows, fun i hi => ?_⟩
    · have hprogress : Answers s' (progress id) (s'.get id) := rfl
      rw [hget] at hprogress
      exact Gives.bind hprogress rfl
    · by_cases hi : i = id
      · rw [hi, hhome]
        exact .inr ⟨entries, hget, hrows⟩
      · rw [← haside i hi]
        exact hready i
    · have hne : i ≠ id := by
        rintro rfl
        cases hi.symm.trans hhome
      exact hrest i ((haside i hne).trans hi) hne
  · have hend : (s.get id).ended = true := by rw [hget]
    have hentries : Answers s ((upTo n).entries id pairs) (tableOf pairs (s.get id).entries) :=
      answers_entries hend pairs
    rw [hget] at hentries
    exact ⟨s, entries, hentries, hs, tableOf_rows hrows, fun _ _ => rfl⟩

end Relations

/-! ### Reading to the end -/

namespace Value

variable {home : Nat → Value}

/-- The level below serves for the parts of a value. -/
theorem settleTo_eq (n : Nat) : ∃ m below, settleTo n = settleWith (.upTo m) below ∧
    ∀ v : Value, v.depth + 1 ≤ n → below v = settleTo (n - 1) v := by
  cases n with
  | zero => exact ⟨0, _, rfl, fun v hv => absurd hv (Nat.not_succ_le_zero _)⟩
  | succ n => exact ⟨n, _, rfl, fun v _ => rfl⟩

theorem settleTo_string_reads {i : Nat} {pieces : List Text} (hi : home i = .string i pieces)
    (n : Nat) : Reads home (settleTo n (.string i pieces)) (.text pieces.flatten) := by
  obtain ⟨m, below, hlevel, -⟩ := settleTo_eq n
  rw [hlevel]
  exact (Reads.wholeText hi).bind (Reads.pure _)

/-- **Reading a value to the end gives its content.** -/
theorem settleTo_reads (h : Housed home v) {n : Nat} (hn : v.depth ≤ n) :
    Reads home (settleTo n v) v.content := by
  induction h generalizing n with
  | null | bool | number =>
    obtain ⟨m, below, hlevel, -⟩ := settleTo_eq n
    rw [hlevel]
    exact Reads.pure _
  | string hi => exact settleTo_string_reads hi n
  | @array id items hhome _ ih =>
    obtain ⟨m, below, hlevel, hbelow⟩ := settleTo_eq n
    have hitems : ∀ v ∈ items, Reads home (below v) v.content := by
      intro v hv
      have hdepth : v.depth + 1 ≤ n := (depth_item hv).trans hn
      rw [hbelow v hdepth]
      exact ih v hv (by omega)
    rw [hlevel, content, contents_eq]
    exact (Reads.allItems hhome).bind ((Reads.mapM hitems).bind (Reads.pure _))
  | @object id pairs hhome hkeys _ ih =>
    obtain ⟨m, below, hlevel, hbelow⟩ := settleTo_eq n
    have hn : depthPairs pairs ≤ n := hn
    intro s hs
    obtain ⟨s₁, entries, hentries, hs₁, htable, hkept₁⟩ :=
      Relations.entries_gives_merged (n := m) hkeys hhome hs
    have hparts : ∀ p ∈ Relations.tableOf pairs entries,
        Reads home (do return (← below p.1, ← below p.2))
          (Datum.text p.1.keyText, p.2.content) := by
      intro p hp
      obtain ⟨hk, hv⟩ := depth_table hp
      obtain ⟨e, -, hpick⟩ := List.mem_filterMap.1 hp
      have hpick : e.pick pairs = some (p.1, p.2) := hpick
      obtain ⟨⟨w, hkey⟩, w', hvalue⟩ := Entry.pick_eq hpick
      obtain ⟨i, pieces, hstring, hi⟩ := hkeys _ (List.mem_of_getElem? hkey)
      have hvalue := ih _ (List.mem_of_getElem? hvalue) (n := n - 1) (by dsimp only; omega)
      rw [hbelow _ (hk.trans hn), hbelow _ (hv.trans hn)]
      have hstring : p.1 = .string i pieces := hstring
      rw [hstring]
      exact (settleTo_string_reads hi _).bind (hvalue.bind (Reads.pure _))
    obtain ⟨s₂, hmap, hs₂, hkept₂⟩ := Reads.mapM hparts s₁ hs₁
    have hrecord : (Relations.tableOf pairs entries).map
        (fun p => (Datum.text p.1.keyText, p.2.content)) = Datum.record (members pairs) := by
      rw [Datum.record, members_eq]
      have hmembers : pairs.map (fun p => (p.1.keyText, p.2.content)) =
          (pairMembers pairs).map fun m => (m.1, m.2.content) := by
        rw [pairMembers, List.map_map]
        rfl
      rw [hmembers, merged_map, ← htable, List.map_map, List.map_map]
      rfl
    refine ⟨s₂, ?_, hs₂, fun i hi => (hkept₂ i hi).trans (hkept₁ i hi)⟩
    rw [hlevel, content, ← hrecord]
    exact hentries.bind (hmap.bind rfl)

end Value

end FilterShell
