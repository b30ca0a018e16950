import FilterShell.Proofs.Value.Regardless
import FilterShell.Proofs.Workspace.Filling
import FilterShell.Workspace.Step

/-!
# Strings and arrays as sequences

A string or an array is read as far as a read needs it, so that reads of all kinds work on what others have
left of it (`Read`).  Once it is terminated, each read is answered as the sequence of
characters or items answers it, after any reads (`Workspace.reads_as_sequence`).

How a text was cut into pieces is seen only by popping them.  Every other read runs side by side with the
same read of another string of that text (`Value.Twin.reading`, `Value.Twin.after`).
-/

namespace FilterShell

variable {rs : List Read} {r : Read}

open Reading

/-- A read of a string or an array. -/
inductive Read where
  | item (k : Nat)
  /-- A step of an iteration.  Many may be under way at the same time, told apart by a number. -/
  | next (j : Nat)
  | length
  | pop
  | text
  | compare (c : Comparison) (g : Given)

/-! ### Contents -/

/-- The pieces that have not been taken and stand before the end. -/
def Progress.waiting {α : Type} (p : Progress) (xs : List α) : List α :=
  if p.ended then [] else (xs.take ((p.end? xs.length).getD xs.length)).drop p.taken

namespace Progress.Sealed

variable {α : Type} {p : Progress} {xs : List α}

theorem taken_append_waiting (h : p.Sealed xs.length) : xs.take p.taken ++ p.waiting xs = xs := by
  unfold Progress.waiting
  cases hended : p.ended with
  | true =>
    rw [if_pos rfl, h.ended hended, List.take_length, List.append_nil]
  | false =>
    rw [if_neg Bool.false_ne_true, h.stop hended, Option.getD_some, List.take_length]
    exact List.take_append_drop _ _

theorem head?_waiting (h : p.Sealed xs.length) : (p.waiting xs).head? = xs[p.taken]? := by
  unfold Progress.waiting
  cases hended : p.ended with
  | true =>
    rw [if_pos rfl, h.ended hended, List.getElem?_eq_none le_rfl]
    rfl
  | false =>
    rw [if_neg Bool.false_ne_true, h.stop hended, Option.getD_some, List.take_length]
    exact List.head?_drop

end Progress.Sealed

namespace Value

/-- How far the value has been read. -/
def progress (s : Store) (v : Value) : Progress := (v.id?.map s.get).getD {}

/-- The pieces that have been taken. -/
def stored (s : Store) (v : Value) : List Given := v.pieces.take (v.progress s).taken

/-- The pieces that wait to be taken. -/
def queued (s : Store) (v : Value) : List Given := (v.progress s).waiting v.pieces

end Value

/-! ### Readers -/

/-- A workspace, and where the readers of a container in it stand. -/
structure Reader where
  space  : Workspace
  /-- Where each iteration goes on; one that has ended goes on nowhere. -/
  places : Nat → Option Nat := fun _ => some 0

namespace Read

/-- The read of a value by readers that stand at these places. -/
def reading (v : Value) (places : Nat → Option Nat) : Read → Reading Reply
  | .item k      => Work.actOn v (.item (.int k))
  | .next j      => match places j with
    | none   => return .missing
    | some k => do
      match ← v.part? k with
      | some g => return .given g
      | none   => return .missing
  | .length      => Work.actOn v .length
  | .pop         => do return .given (← v.pop)
  | .text        => Work.actOn v .text
  | .compare c g => Work.actOn v (.compare c g)

/-- Where the readers stand after the reply: an iteration goes on as long as something is met. -/
def moved (places : Nat → Option Nat) : Read → Except Fault Reply → Nat → Option Nat
  | .next j, .ok (.given _) => Function.update places j ((places j).map (· + 1))
  | .next j, _              => Function.update places j none
  | _, _                    => places

/-- The read in a workspace. -/
def work (v : Value) (places : Nat → Option Nat) : Read → Work Reply
  | .pop => match v.id? with
    | none   => throw .noOperation
    | some i => do return .given (← Work.pop (.container i))
  | r    => Work.reading (r.reading v places)

/-- Carries out a read and gives the reply. -/
def perform (v : Value) (r : Read) (x : Reader) : Except Fault Reply × Reader :=
  let y := (r.work v x.places).run.run x.space
  (y.1, ⟨y.2, r.moved x.places y.1⟩)

/-- It is a step of this iteration. -/
def isStep (j : Nat) : Read → Bool
  | .next i => i == j
  | _       => false

/-- How many steps of an iteration are among the reads. -/
def steps (rs : List Read) (j : Nat) : Nat := rs.countP (isStep j)

/-- The reply is that of the sequence of characters or items of the value: what is at a place, if there are
that many; in an iteration, what is at the place of this step; the length.  Popping gives the next of the
pieces that wait. -/
def Right (v : Value) (s : Store) (steps : Nat → Nat) (e : Except Fault Reply) : Read → Prop
  | .item k            => e = found k (v.sequence[k]?.map .given)
  | .next j            => e = .ok ((v.sequence[steps j]?.map .given).getD .missing)
  | .length            => e = .ok (.count v.sequence.length)
  | .pop               => e = ((v.queued s).head?.map .given).elim (.error .exhausted) .ok
  | .text | .compare .. => True

end Read

/-- The readers of a value after some reads. -/
def Reader.after (v : Value) (x : Reader) (rs : List Read) : Reader :=
  rs.foldl (fun x r => (r.perform v x).2) x

/-! ### Single reads -/

namespace Value.IsRow

variable {i : Nat} {v : Value} (h : v.IsRow i)

include h

theorem progress_eq (s : Store) : v.progress s = s.get i := by
  rw [Value.progress, h.id?_eq]
  rfl

theorem part? (k : Nat) : Finds i v.pieces.length (v.part? k) (.ok v.sequence[k]?) := by
  cases h with
  | string ps =>
    rw [sequence_string, List.getElem?_map, pieces, List.length_map]
    exact (rune?_finds i ps k).bind (finds_pure _)
  | array items =>
    rw [sequence_array, List.getElem?_map, pieces, List.length_map]
    exact (item?_finds i items k).bind (finds_pure _)

theorem item (k : Nat) : Finds i v.pieces.length (Work.actOn v (.item (.int k)))
    (found k (v.sequence[k]?.map .given)) := by
  cases h with
  | string ps =>
    rw [sequence_string, List.getElem?_map, pieces, List.length_map, found_map, found_map]
    exact ((atPlace_finds _ (runeAt_finds i ps k)).map fun r => Given.text [r]).map Reply.given
  | array items =>
    rw [sequence_array, List.getElem?_map, pieces, List.length_map, found_map, found_map]
    exact ((atPlace_finds _ (itemAt_finds i items k)).map Given.value).map Reply.given

theorem length : Finds i v.pieces.length (Work.actOn v .length) (.ok (.count v.sequence.length)) := by
  cases h with
  | string ps =>
    rw [sequence_string, List.length_map, pieces, List.length_map]
    exact ((wholeText_finds i ps).map List.length).map Reply.count
  | array items =>
    rw [sequence_array, List.length_map, pieces, List.length_map]
    exact ((allItems_finds i items).map List.length).map Reply.count

variable {s : Store} (hs : (s.get i).Sealed v.pieces.length)

include hs

theorem stored_append_queued : v.stored s ++ v.queued s = v.pieces := by
  rw [stored, queued, h.progress_eq]
  exact hs.taken_append_waiting

/-- Popping gives the next piece that waits. -/
theorem pop : ∃ s₁, v.pop.outcome.run s = ((v.queued s).head?.elim (.error .exhausted) .ok, s₁) ∧
    s.Onward i v.pieces.length s₁ := by
  obtain ⟨s₁, htake, hon⟩ := take?_sealed hs
  refine ⟨s₁, ?_, hon⟩
  rw [queued, h.progress_eq, hs.head?_waiting, Value.pop, h.id?_eq, h.size_eq]
  dsimp only
  by_cases hlt : (s.get i).taken < v.pieces.length
  · have hpiece := List.getElem?_eq_getElem hlt
    rw [if_pos hlt] at htake
    rw [hpiece]
    refine htake.bind ?_
    dsimp only
    rw [h.pieceAt_eq hpiece]
    rfl
  · rw [if_neg hlt] at htake
    rw [List.getElem?_eq_none (Nat.not_lt.1 hlt)]
    exact htake.bind_fails rfl

end Value.IsRow

/-- **A read in a workspace changes nothing but the store**, as the read of the value does. -/
theorem Workspace.Holds.perform_eq {i : Nat} {v : Value} {x : Reader} (h : x.space.Holds i v) (r : Read) :
    r.perform v x = (((r.reading v x.places).outcome.run x.space.store).1,
      ⟨{ x.space with store := ((r.reading v x.places).outcome.run x.space.store).2 },
        r.moved x.places ((r.reading v x.places).outcome.run x.space.store).1⟩) := by
  have hreads : Work.OnStore x.space (r.work v x.places) (r.reading v x.places) := by
    cases r with
    | pop =>
      rw [Read.work, h.row.id?_eq]
      exact h.pop.bind fun g => Work.onStore_pure _
    | item k => exact Work.onStore_reading h.held (Read.reading v x.places (.item k))
    | next j => exact Work.onStore_reading h.held (Read.reading v x.places (.next j))
    | length => exact Work.onStore_reading h.held (Read.reading v x.places .length)
    | text => exact Work.onStore_reading h.held (Read.reading v x.places .text)
    | compare c g => exact Work.onStore_reading h.held (Read.reading v x.places (.compare c g))
  have hrun : (r.work v x.places).run.run x.space = _ := hreads x.space.store
  rw [Read.perform, hrun]

/-! ### Reads side by side -/

/-- All values that the read compares with are in a class. -/
def Read.Within (K : Value → Prop) : Read → Prop
  | .compare _ g => g.All K
  | _            => True

theorem Read.Within.imp {K K' : Value → Prop} (h : ∀ v, K v → K' v) (hr : r.Within K) :
    r.Within K' := by
  cases r with
  | compare c g => exact Given.All.imp h hr
  | item k => trivial
  | next j => trivial
  | length => trivial
  | pop => trivial
  | text => trivial

/-- The values cannot be told apart: they are one array, or strings of the same text. -/
inductive Value.Twin (size : Nat → Option Nat) : Value → Value → Prop
  | string {i j : Nat} {ps qs : List Text} (hi : size i = some ps.length) (hj : size j = some qs.length)
      (htext : qs.flatten = ps.flatten) : Twin size (.string i ps) (.string j qs)
  | array {i : Nat} {items : List Value} (hi : size i = some items.length)
      (hitems : ∀ v ∈ items, v.Sized size) : Twin size (.array i items) (.array i items)

/-- The readers stand at the same places, and their stores agree but for some reading. -/
structure Reader.Agree (size : Nat → Option Nat) (v v' : Value) (x x' : Reader) : Prop where
  left   : ∃ i, x.space.Holds i v
  right  : ∃ j, x'.space.Holds j v'
  store  : x.space.store.AgreeBut size x'.space.store
  places : x'.places = x.places

namespace Value.Twin

variable {size : Nat → Option Nat} {v v' : Value}

theorem rows (h : Twin size v v') : ∃ i j, v.IsRow i ∧ v'.IsRow j ∧ size i = some v.pieces.length ∧
    size j = some v'.pieces.length ∧ v'.sequence = v.sequence := by
  cases h with
  | string hi hj htext =>
    refine ⟨_, _, .string _, .string _, ?_, ?_, ?_⟩
    · rw [pieces, List.length_map, hi]
    · rw [pieces, List.length_map, hj]
    · rw [sequence_string, sequence_string, htext]
  | array hi hitems =>
    refine ⟨_, _, .array _, .array _, ?_, ?_, rfl⟩ <;> rw [pieces, List.length_map, hi]

/-- **A read that does not pop runs side by side with the same read of the other value.** -/
theorem reading (h : Twin size v v') (places : Nat → Option Nat) {r : Read} (hr : r.Within (Sized size))
    (hpop : r ≠ .pop) : Parallel (Store.AgreeBut size) (r.reading v places) (r.reading v' places) fun _ => True := by
  obtain ⟨i, j, hv, hv', hi, hj, hsequence⟩ := h.rows
  cases r with
  | item k =>
    have hitem := hv'.item k
    rw [hsequence] at hitem
    exact (Parallel.of_finds hi hj (hv.item k) hitem).imp fun _ _ => trivial
  | next l =>
    unfold Read.reading
    dsimp only
    split
    · exact .pure trivial
    · rename_i k _
      have hpart := hv'.part? k
      rw [hsequence] at hpart
      refine (Parallel.of_finds hi hj (hv.part? k) hpart).bind fun found _ => ?_
      split
      · exact .pure trivial
      · exact .pure trivial
  | length =>
    have hlength := hv'.length
    rw [hsequence] at hlength
    exact (Parallel.of_finds hi hj hv.length hlength).imp fun _ _ => trivial
  | pop => exact absurd rfl hpop
  | text =>
    cases h with
    | string hps hqs htext => exact (text_parallel hps hqs htext).bind fun _ _ => .pure trivial
    | array hid hitems =>
      refine Parallel.bind ((covers_sized size).text (.array ?_ hitems)) fun _ _ => .pure trivial
      exact fun n hn => Option.some.inj (hn.symm.trans hid)
  | compare c g =>
    cases h with
    | string hps hqs htext => exact (compare_parallel hps hqs htext c hr).bind fun _ _ => .pure trivial
    | array hid hitems =>
      refine Parallel.bind ((covers_sized size).compareGiven (.array ?_ hitems) (toValue_regardless hr)
        ?_ c) fun _ _ => .pure trivial
      · exact fun n hn => Option.some.inj (hn.symm.trans hid)
      · rintro w rfl
        cases hr with
        | value hw => exact hw

/-- Popping leaves stores that agree, though what is popped may differ. -/
theorem popped (h : Twin size v v') {s s' : Store} (hs : s.AgreeBut size s') :
    (v.pop.outcome.run s).2.AgreeBut size (v'.pop.outcome.run s').2 := by
  obtain ⟨i, j, hv, hv', hi, hj, -⟩ := h.rows
  obtain ⟨s₁, hrun, hon⟩ := hv.pop (hs.sealed _ _ hi).1
  obtain ⟨s₁', hrun', hon'⟩ := hv'.pop (hs.sealed _ _ hj).2
  rw [hrun, hrun']
  exact ((hs.onward hi hon).symm.onward hj hon').symm

theorem perform (h : Twin size v v') (hr : r.Within (Sized size)) {x x' : Reader}
    (hx : x.Agree size v v' x') : (r.perform v x).2.Agree size v v' (r.perform v' x').2 ∧
      (r ≠ .pop → (r.perform v' x').1 = (r.perform v x).1) := by
  obtain ⟨i, hv⟩ := hx.left
  obtain ⟨j, hv'⟩ := hx.right
  rw [hv.perform_eq, hv'.perform_eq, hx.places]
  by_cases hpop : r = .pop
  · subst hpop
    have hrun : ∀ (w : Value) (t : Store), ((Read.pop.reading w x.places).outcome.run t).2 =
        (w.pop.outcome.run t).2 := by
      intro w t
      rw [Read.reading, run_bind]
      rcases w.pop.outcome.run t with ⟨_ | _, _⟩ <;> rfl
    refine ⟨⟨⟨i, hv.read _⟩, ⟨j, hv'.read _⟩, ?_, rfl⟩, fun hne => absurd rfl hne⟩
    dsimp only
    rw [hrun, hrun]
    exact h.popped hx.store
  · obtain ⟨hsame, hagree, -⟩ := h.reading x.places hr hpop _ _ hx.store
    rw [hsame]
    exact ⟨⟨⟨i, hv.read _⟩, ⟨j, hv'.read _⟩, hagree, rfl⟩, fun _ => rfl⟩

theorem after (h : Twin size v v') (hrs : ∀ r ∈ rs, r.Within (Sized size)) {x x' : Reader}
    (hx : x.Agree size v v' x') : (x.after v rs).Agree size v v' (x'.after v' rs) := by
  induction rs generalizing x x' with
  | nil => exact hx
  | cons r rs ih =>
    obtain ⟨hr, hrs⟩ := List.forall_mem_cons.1 hrs
    exact ih hrs (h.perform hr hx).1

end Value.Twin

/-! ### Replies -/

/-- The readers have come as far as their steps, up to the end of the sequence. -/
def Reader.Stepped (v : Value) (steps : Nat → Nat) (x : Reader) : Prop :=
  ∀ j, x.places j = if steps j ≤ v.sequence.length then some (steps j) else none

namespace Workspace.Holds

variable {i : Nat} {v : Value} {x : Reader} {steps : Nat → Nat}

/-- Every reply is that of the sequence. -/
theorem right (h : x.space.Holds i v) (hs : (x.space.store.get i).Sealed v.pieces.length)
    (hx : x.Stepped v steps) (r : Read) : r.Right v x.space.store steps (r.perform v x).1 := by
  have hrow := h.row
  rw [h.perform_eq]
  cases r with
  | item k =>
    obtain ⟨s₁, hrun, -⟩ := hrow.item k x.space.store hs
    exact congrArg Prod.fst hrun
  | next j =>
    have hplace := hx j
    unfold Read.Right Read.reading
    dsimp only
    by_cases hle : steps j ≤ v.sequence.length
    · rw [if_pos hle] at hplace
      obtain ⟨s₁, hrun, -⟩ := hrow.part? (steps j) x.space.store hs
      rw [hplace]
      dsimp only
      rw [run_bind, hrun]
      cases v.sequence[steps j]? <;> rfl
    · rw [if_neg hle] at hplace
      rw [hplace, List.getElem?_eq_none (Nat.le_of_not_le hle)]
      rfl
  | length =>
    obtain ⟨s₁, hrun, -⟩ := hrow.length x.space.store hs
    exact congrArg Prod.fst hrun
  | pop =>
    obtain ⟨s₁, hrun, -⟩ := hrow.pop hs
    unfold Read.Right Read.reading
    dsimp only
    rw [run_bind, hrun]
    cases (v.queued x.space.store).head? <;> rfl
  | text => trivial
  | compare c g => trivial

/-- A step takes an iteration one place on, until it has passed the end. -/
theorem stepped (h : x.space.Holds i v) (hs : (x.space.store.get i).Sealed v.pieces.length)
    (hx : x.Stepped v (Read.steps rs)) (r : Read) :
    (r.perform v x).2.Stepped v (Read.steps (rs ++ [r])) := by
  intro j
  have hcount : Read.steps (rs ++ [r]) j = Read.steps rs j + if r.isStep j then 1 else 0 := by
    rw [Read.steps, List.countP_append, List.countP_singleton]
    rfl
  rw [hcount]
  cases r with
  | next l =>
    have hreply : (Read.perform v (.next l) x).1 =
        .ok ((v.sequence[Read.steps rs l]?.map .given).getD .missing) := h.right hs hx (.next l)
    have hplaces : (Read.perform v (.next l) x).2.places =
        Read.moved x.places (.next l) (Read.perform v (.next l) x).1 := rfl
    rw [hplaces, hreply]
    by_cases hl : l = j
    · subst hl
      rw [show Read.isStep l (.next l) = true from beq_self_eq_true l, if_pos rfl]
      by_cases hlt : Read.steps rs l < v.sequence.length
      · rw [List.getElem?_eq_getElem hlt, if_pos (Nat.succ_le_of_lt hlt)]
        change Function.update x.places l ((x.places l).map (· + 1)) l = _
        rw [Function.update_self, hx l, if_pos hlt.le]
        rfl
      · rw [List.getElem?_eq_none (Nat.not_lt.1 hlt), if_neg (by omega)]
        exact Function.update_self ..
    · rw [show Read.isStep j (.next l) = false from beq_false_of_ne hl, if_neg Bool.false_ne_true,
        Nat.add_zero, ← hx j]
      cases v.sequence[Read.steps rs l]? with
      | none => exact Function.update_of_ne (Ne.symm hl) ..
      | some g => exact Function.update_of_ne (Ne.symm hl) ..
  | item k => exact hx j
  | length => exact hx j
  | pop => exact hx j
  | text => exact hx j
  | compare c g => exact hx j

end Workspace.Holds

/-- After any reads the readers have come as far as their steps. -/
theorem Value.Twin.stepped {size : Nat → Option Nat} {v : Value} (h : Twin size v v) {w : Workspace}
    (hw : ({ space := w } : Reader).Agree size v v { space := w })
    (hrs : ∀ r ∈ rs, r.Within (Sized size)) :
    (({ space := w } : Reader).after v rs).Stepped v (Read.steps rs) := by
  obtain ⟨i, -, hi, -, hsize, -, -⟩ := h.rows
  induction rs using List.reverseRecOn with
  | nil => exact fun j => (if_pos (Nat.zero_le _)).symm
  | append_singleton rs r ih =>
    have hbefore : ∀ r ∈ rs, r.Within (Sized size) := fun r hr => hrs r (List.mem_append_left _ hr)
    have hagree := h.after hbefore hw
    obtain ⟨j, hv⟩ := hagree.left
    obtain rfl : i = j := Option.some.inj (hi.id?_eq.symm.trans hv.row.id?_eq)
    rw [Reader.after, List.foldl_append]
    exact hv.stepped (hagree.store.sealed _ _ hsize).1 (ih hbefore) r

/-! ### Terminated values -/

namespace Value

/-- Each container in the value is the one of its identity. -/
inductive Homed (home : Nat → Value) : Value → Prop
  | exception (e : Exception) : Homed home (.exception e)
  | null : Homed home .null
  | bool (b : Bool) : Homed home (.bool b)
  | number (id : Nat) (d : Decimal) : Homed home (.number id d)
  | string {id : Nat} {pieces : List Text} (hid : home id = .string id pieces) : Homed home (.string id pieces)
  | array {id : Nat} {items : List Value} (hid : home id = .array id items)
      (hitems : ∀ v ∈ items, Homed home v) : Homed home (.array id items)
  | object {id : Nat} {pairs : List (Value × Value)} (hid : home id = .object id pairs)
      (hkeys : ∀ p ∈ pairs, Homed home p.1) (hvalues : ∀ p ∈ pairs, Homed home p.2) :
      Homed home (.object id pairs)

variable {home : Nat → Value} {size : Nat → Option Nat} {s : Store} {v : Value}

theorem Homed.sized (hsize : ∀ i n, size i = some n → (home i).IsRow i ∧ n = (home i).pieces.length)
    (h : v.Homed home) : v.Sized size := by
  induction h with
  | exception e => exact .exception e
  | null => exact .null
  | bool b => exact .bool b
  | number id d => exact .number id d
  | string hid =>
    refine .string fun n hn => ?_
    rw [(hsize _ n hn).2, hid, pieces, List.length_map]
  | array hid _ ih =>
    refine .array (fun n hn => ?_) ih
    rw [(hsize _ n hn).2, hid, pieces, List.length_map]
  | @object id pairs hid _ _ ihk ihv =>
    refine .object (Option.eq_none_iff_forall_ne_some.2 fun n hn => ?_) ihk ihv
    have hrow := (hsize _ n hn).1
    rw [hid] at hrow
    cases hrow

/-- The number of pieces of two containers. -/
def sizes (home : Nat → Value) (i j k : Nat) : Option Nat :=
  if k = i ∨ k = j then some (home k).pieces.length else none

theorem IsRow.home_eq {i : Nat} (hi : v.IsRow i) (h : v.Homed home) : home i = v := by
  cases hi with
  | string ps => cases h with
    | string hid => exact hid
  | array items => cases h with
    | array hid _ => exact hid

theorem IsRow.sizes_self {i j k : Nat} (hk : v.IsRow k) (h : v.Homed home) (hij : k = i ∨ k = j) :
    sizes home i j k = some v.pieces.length := by
  rw [sizes, if_pos hij, hk.home_eq h]

end Value

namespace Workspace.Filled

variable {w : Workspace} {home : Nat → Value} {i j : Nat} {v v' : Value} (hv : w.Filled i v)
  (hv' : w.Filled j v') (hi : v.Homed home) (hj : v'.Homed home)

include hv hv' hi hj

theorem sizes_eq {k n : Nat} (hk : Value.sizes home i j k = some n) :
    (home k).IsRow k ∧ (w.store.get k).Sealed n ∧ n = (home k).pieces.length ∧ k < w.store.next := by
  have hcases : k = i ∨ k = j := by
    by_contra h
    rw [Value.sizes, if_neg h] at hk
    cases hk
  rw [Value.sizes, if_pos hcases] at hk
  obtain rfl := Option.some.inj hk
  rcases hcases with rfl | rfl
  · rw [hv.row.home_eq hi]
    exact ⟨hv.row, hv.sealed, rfl, hv.known⟩
  · rw [hv'.row.home_eq hj]
    exact ⟨hv'.row, hv'.sealed, rfl, hv'.known⟩

theorem agree : ({ space := w } : Reader).Agree (Value.sizes home i j) v v' { space := w } where
  left := ⟨i, hv.toHolds⟩
  right := ⟨j, hv'.toHolds⟩
  store := {
    next := rfl
    bound := fun _ hk => Option.eq_none_iff_forall_ne_some.2 fun _ hn =>
      hk.not_gt (hv.sizes_eq hv' hi hj hn).2.2.2
    same := fun _ _ => rfl
    sealed := fun _ _ hn => ⟨(hv.sizes_eq hv' hi hj hn).2.1, (hv.sizes_eq hv' hi hj hn).2.1⟩ }
  places := rfl

theorem sized {u : Value} (hu : u.Homed home) : u.Sized (Value.sizes home i j) :=
  hu.sized fun _ _ hn => ⟨(hv.sizes_eq hv' hi hj hn).1, (hv.sizes_eq hv' hi hj hn).2.2.1⟩

end Workspace.Filled

namespace Workspace.Filled

variable {w : Workspace} {home : Nat → Value} {i j : Nat} {v : Value}

theorem twin (hv : w.Filled i v) (hhome : v.Homed home) : Value.Twin (Value.sizes home i i) v v := by
  have hsize : Value.sizes home i i i = some v.pieces.length := hv.row.sizes_self hhome (.inl rfl)
  have hsized := fun {u} => hv.sized hv hhome hhome (u := u)
  cases hv.row with
  | string ps =>
    rw [Value.pieces, List.length_map] at hsize
    exact .string hsize hsize rfl
  | array items =>
    rw [Value.pieces, List.length_map] at hsize
    cases hhome with
    | array hid hitems => exact .array hsize fun u hu => hsized (hitems u hu)

theorem twin_string {ps qs : List Text} (hv : w.Filled i (.string i ps)) (hw : w.Filled j (.string j qs))
    (hi : (Value.string i ps).Homed home) (hj : (Value.string j qs).Homed home)
    (htext : qs.flatten = ps.flatten) :
    Value.Twin (Value.sizes home i j) (.string i ps) (.string j qs) := by
  refine .string ?_ ?_ htext
  · rw [hv.row.sizes_self hi (.inl rfl), Value.pieces, List.length_map]
  · rw [hw.row.sizes_self hj (.inr rfl), Value.pieces, List.length_map]

/-- After any reads the readers have come as far as their steps in a terminated container. -/
theorem after (hv : w.Filled i v) (hhome : v.Homed home)
    (hrs : ∀ r ∈ rs, r.Within (Value.Homed home)) :
    let x := ({ space := w } : Reader).after v rs
    x.space.Holds i v ∧ (x.space.store.get i).Sealed v.pieces.length ∧ x.Stepped v (Read.steps rs) := by
  intro x
  have htwin := hv.twin hhome
  have hreads : ∀ r ∈ rs, r.Within (Value.Sized (Value.sizes home i i)) :=
    fun r hr => (hrs r hr).imp fun _ => hv.sized hv hhome hhome
  have hagree := hv.agree hv hhome hhome
  have hafter := htwin.after hreads hagree
  have hsize : Value.sizes home i i i = some v.pieces.length := hv.row.sizes_self hhome (.inl rfl)
  obtain ⟨j, hholds⟩ := hafter.left
  obtain rfl : i = j := Option.some.inj (hv.row.id?_eq.symm.trans hholds.row.id?_eq)
  exact ⟨hholds, (hafter.store.sealed _ _ hsize).1, htwin.stepped hagree hreads⟩

/-- Reads of strings of the same text have the same reply, unless a piece is popped. -/
theorem same_reply {ps qs : List Text} (hv : w.Filled i (.string i ps)) (hw : w.Filled j (.string j qs))
    (hi : (Value.string i ps).Homed home) (hj : (Value.string j qs).Homed home)
    (htext : qs.flatten = ps.flatten) (hrs : ∀ r ∈ rs, r.Within (Value.Homed home))
    (hr : r.Within (Value.Homed home)) (hpop : r ≠ .pop) :
    (r.perform (.string j qs) (({ space := w } : Reader).after (.string j qs) rs)).1 =
      (r.perform (.string i ps) (({ space := w } : Reader).after (.string i ps) rs)).1 := by
  have htwin := hv.twin_string hw hi hj htext
  have himp : ∀ u : Value, u.Homed home → u.Sized (Value.sizes home i j) := fun _ => hv.sized hw hi hj
  have hafter := htwin.after (fun r hr => (hrs r hr).imp himp) (hv.agree hw hi hj)
  exact (htwin.perform (hr.imp himp) hafter).2 hpop

end Workspace.Filled

/-- **Strings and arrays behave as the sequences put into them.**  Whatever is pushed into an open one before
it is terminated, after any reads of it what has been taken and what waits is the whole sequence, and the next
read, whichever it is, is answered as the sequence answers it.  The same reads of another string of the same
text have the same reply, unless a piece is popped. -/
theorem Workspace.reads_as_sequence {w : Workspace} {i : Nat} {v : Value} {gs : List Given}
    {home : Nat → Value} (hv : w.Open i v) (hgs : ∀ g ∈ gs, v.Accepts i g) (hhome : (v.filled gs).Homed home)
    {rs : List Read} (hrs : ∀ r ∈ rs, r.Within (Value.Homed home)) {r : Read}
    (hr : r.Within (Value.Homed home)) :
    ∃ w', Work.Runs w (Work.fill i gs) (.ok ()) w' ∧
      let u := v.filled gs
      let x := ({ space := w' } : Reader).after u rs
      u.sequence = (v.pieces ++ gs).flatMap Given.split ∧ x.space.container? i = some u ∧
      (u.stored x.space.store ++ u.queued x.space.store).flatMap Given.split = u.sequence ∧
      r.Right u x.space.store (Read.steps rs) (r.perform u x).1 ∧
      ∀ ps j qs, u = .string i ps → w'.Filled j (.string j qs) → (Value.string j qs).Homed home →
        qs.flatten = ps.flatten → r ≠ .pop →
        (r.perform (.string j qs) (({ space := w' } : Reader).after (.string j qs) rs)).1 =
          (r.perform u x).1 := by
  obtain ⟨w', hrun, hfilled⟩ := hv.fill hgs
  obtain ⟨hholds, hsealed, hstepped⟩ := hfilled.after hhome hrs
  refine ⟨w', hrun, ?_, hholds.container, ?_, hholds.right hsealed hstepped r, ?_⟩
  · rw [Value.sequence, Value.pieces_filled hgs]
  · rw [hholds.row.stored_append_queued hsealed]
    rfl
  · intro ps j qs hu hw hj htext hpop
    rw [hu] at hfilled hhome ⊢
    exact hfilled.same_reply hw hhome hj htext hrs hr hpop

/-- A workspace of two strings. -/
def Workspace.ofStrings (ps qs : List Text) (inlets : List (Nat × Inlet))
    (progress : List (Nat × Progress)) : Workspace where
  names  := [("s", .value (.string 0 ps)), ("t", .value (.string 1 qs))]
  inlets := inlets
  store  := { next := 2, progress := progress }

/-- Two strings of one text, cut in different ways and pushed piece by piece. -/
theorem Workspace.reads_as_sequence_pieces :
    ∃ w w',
      Work.Runs (ofStrings [] [] [(0, {}), (1, {})] [(0, { ends := some [] }), (1, { ends := some [] })])
        (Work.fill 1 [.text "ab", .text "c"]) (.ok ()) w ∧
      Work.Runs w (Work.fill 0 [.text "a", .text [], .text "bc"]) (.ok ()) w' ∧
      let s := (Value.string 0 []).filled [.text "a", .text [], .text "bc"]
      let t : Value := .string 1 ["ab", "c"]
      let rs : List Read := [.next 0, .pop, .compare .less (.value t), .next 0, .item 3]
      let x := ({ space := w' } : Reader).after s rs
      (s.stored x.space.store ++ s.queued x.space.store).flatMap Given.split =
          [.text "a", .text "b", .text "c"] ∧
        (Read.perform s (.next 0) x).1 = .ok (.given (.text "c")) ∧
        (Read.perform t (.next 0) (({ space := w' } : Reader).after t rs)).1 = .ok (.given (.text "c")) := by
  obtain ⟨home, hs, ht⟩ : ∃ home : Nat → Value,
      home 0 = .string 0 ["a", [], "bc"] ∧ home 1 = .string 1 ["ab", "c"] :=
    ⟨fun k => if k = 0 then .string 0 ["a", [], "bc"] else .string 1 ["ab", "c"], rfl, rfl⟩
  have hopen : (ofStrings [] ["ab", "c"] [(1, { closed := true }), (0, {})]
      [(1, { ends := some [2] }), (0, { ends := some [] })]).Open 0 (.string 0 []) :=
    ⟨⟨.string _, rfl, rfl, rfl⟩, by decide, ⟨{}, rfl, rfl, rfl⟩, rfl, rfl, Nat.le_refl _, trivial⟩
  have hgs : ∀ g ∈ [Given.text "a", .text [], .text "bc"], (Value.string 0 []).Accepts 0 g := by
    intro g hg
    simp only [List.mem_cons, List.not_mem_nil, or_false] at hg
    rcases hg with rfl | rfl | rfl <;> exact .text rfl
  have hrs : ∀ r ∈ [Read.next 0, .pop, .compare .less (.value (.string 1 ["ab", "c"])), .next 0, .item 3],
      r.Within (Value.Homed home) := by
    intro r hr
    simp only [List.mem_cons, List.not_mem_nil, or_false] at hr
    rcases hr with rfl | rfl | rfl | rfl | rfl
    · trivial
    · trivial
    · exact .value (.string ht)
    · trivial
    · trivial
  obtain ⟨w', hrun, -, -, hparts, hright, htwin⟩ :=
    reads_as_sequence hopen hgs (.string hs) hrs (r := .next 0) trivial
  have hfirst : Work.Runs
      (ofStrings [] [] [(0, {}), (1, {})] [(0, { ends := some [] }), (1, { ends := some [] })])
      (Work.fill 1 [.text "ab", .text "c"]) (.ok ())
      (ofStrings [] ["ab", "c"] [(1, { closed := true }), (0, {})]
        [(1, { ends := some [2] }), (0, { ends := some [] })]) := rfl
  have hfill : Work.Runs (ofStrings [] ["ab", "c"] [(1, { closed := true }), (0, {})]
      [(1, { ends := some [2] }), (0, { ends := some [] })])
      (Work.fill 0 [.text "a", .text [], .text "bc"]) (.ok ())
      (ofStrings ["a", [], "bc"] ["ab", "c"] [(0, { closed := true }), (1, { closed := true })]
        [(0, { ends := some [3] }), (1, { ends := some [2] })]) := rfl
  have hfilled : w'.Filled 1 (.string 1 ["ab", "c"]) := by
    rw [hrun.unique hfill]
    exact ⟨⟨.string _, rfl, rfl, rfl⟩, by decide, by decide,
      fun h => absurd h Bool.false_ne_true, fun _ => rfl⟩
  rw [Read.Right] at hright
  refine ⟨_, w', hfirst, hrun, hparts.trans rfl, hright.trans rfl, ?_⟩
  exact (htwin _ _ _ rfl hfilled (.string ht) rfl Read.noConfusion).trans (hright.trans rfl)

end FilterShell
