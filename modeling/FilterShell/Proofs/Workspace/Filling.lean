import FilterShell.Proofs.Channel.Workspace
import FilterShell.Proofs.Value.Sealed

/-!
# Filling strings and arrays

A string takes texts, and an array takes values in which the array is not (`Value.Accepts`).  Once it is
terminated it holds the pieces that were pushed, and its end waits behind them (`Workspace.Open.fill`).

Reads in a workspace in which nothing is held back are reads of its store (`Work.onStore_reading`), and so is taking
the pieces one by one (`Workspace.Holds.pop`).
-/

namespace FilterShell

open Reading

/-! ### Contents -/

/-- The characters of a text; anything else is not split. -/
def Given.split : Given → List Given
  | .text t => t.map fun r => .text [r]
  | g       => [g]

namespace Value

/-- The pieces of a string or an array, in the order in which they were put in. -/
def pieces : Value → List Given
  | .string _ pieces => pieces.map .text
  | .array _ items   => items.map .value
  | _                => []

/-- The piece at a place. -/
def pieceAt : Value → Nat → Given
  | .string _ pieces, k => .text (pieces[k]?.getD [])
  | .array _ items, k   => .value (items[k]?.getD .null)
  | _, _                => .null

/-- The characters or items in turn. -/
def sequence (v : Value) : List Given := v.pieces.flatMap Given.split

theorem sequence_string (i : Nat) (ps : List Text) :
    (Value.string i ps).sequence = ps.flatten.map fun r => .text [r] := by
  unfold sequence pieces
  rw [List.flatMap_map, List.map_flatten]
  rfl

theorem sequence_array (i : Nat) (items : List Value) : (Value.array i items).sequence = items.map .value := by
  unfold sequence pieces
  rw [List.flatMap_map]
  exact List.map_eq_flatMap.symm

/-- The value is the string or the array of an identity. -/
inductive IsRow (i : Nat) : Value → Prop
  | string (ps : List Text) : IsRow i (.string i ps)
  | array (items : List Value) : IsRow i (.array i items)

namespace IsRow

variable {i : Nat} {v : Value} (h : v.IsRow i)

include h

theorem id?_eq : v.id? = some i := by
  cases h <;> rfl

theorem size_eq : v.size = v.pieces.length := by
  cases h <;> exact (List.length_map _).symm

theorem pieceAt_eq {k : Nat} {g : Given} (hk : v.pieces[k]? = some g) : v.pieceAt k = g := by
  cases h with
  | string ps =>
    rw [pieces, List.getElem?_map] at hk
    obtain ⟨t, ht, rfl⟩ := Option.map_eq_some_iff.1 hk
    rw [pieceAt, ht]
    rfl
  | array items =>
    rw [pieces, List.getElem?_map] at hk
    obtain ⟨u, hu, rfl⟩ := Option.map_eq_some_iff.1 hk
    rw [pieceAt, hu]
    rfl

end IsRow

/-- Takes the next piece. -/
def pop (v : Value) : Reading Given := do
  match v.id? with
  | none    => throw .noOperation
  | some id => match ← take? id v.size with
    | none   => throw .exhausted
    | some k => return v.pieceAt k

/-! ### Pushing -/

/-- The string or array with one more piece. -/
def pushed : Value → Given → Value
  | .string i ps, .text t    => .string i (ps ++ [t])
  | .array i items, .value u => .array i (items ++ [u])
  | v, _                     => v

/-- The string or array with more pieces. -/
def filled (v : Value) (gs : List Given) : Value := gs.foldl pushed v

/-- The data can be pushed into the container: a text into a string, a value into an array. -/
inductive Accepts (i : Nat) : Value → Given → Prop
  | text {ps : List Text} {t : Text} (h : t.isWellFormed = true) : Accepts i (.string i ps) (.text t)
  | item {items : List Value} {u : Value} (h : u.mentions i = false) : Accepts i (.array i items) (.value u)

/-- The container of the identity is not among the items. -/
def Apart (i : Nat) : Value → Prop
  | .array _ items => itemsMention i items = false
  | _              => True

variable {i : Nat} {p : Piece}

mutual

theorem grow_of_mentions : ∀ {v : Value}, v.mentions i = false → v.grow i p = v
  | .exception _, _ | .null, _ | .bool _, _ | .number .., _ => rfl
  | .string j ps, h => by
    have hne : ¬ j = i := of_decide_eq_false h
    cases p <;> simp only [grow, if_neg hne]
  | .array j items, h => by
    rw [mentions, Bool.or_eq_false_iff] at h
    have hne : ¬ j = i := of_decide_eq_false h.1
    have hitems := growItems_of_mention h.2
    cases p <;> simp only [grow, hitems, if_neg hne]
  | .object j pairs, h => by
    rw [mentions, Bool.or_eq_false_iff] at h
    have hne : ¬ j = i := of_decide_eq_false h.1
    have hpairs := growPairs_of_mention h.2
    cases p <;> simp only [grow, hpairs, if_neg hne]

theorem growItems_of_mention : ∀ {vs : List Value}, itemsMention i vs = false → growItems i p vs = vs
  | [], _ => rfl
  | v :: r, h => by
    rw [itemsMention, Bool.or_eq_false_iff] at h
    rw [growItems, grow_of_mentions h.1, growItems_of_mention h.2]

theorem growPairs_of_mention : ∀ {ps : List (Value × Value)}, pairsMention i ps = false →
    growPairs i p ps = ps
  | [], _ => rfl
  | (k, v) :: r, h => by
    rw [pairsMention, Bool.or_eq_false_iff, Bool.or_eq_false_iff] at h
    rw [growPairs, grow_of_mentions h.1.1, grow_of_mentions h.1.2, growPairs_of_mention h.2]

end

end Value

/-! ### Work -/

namespace Work

variable {α β : Type} {w w' w'' : Workspace} {i : Nat} {v : Value}

/-- The work ends so and leaves the second workspace. -/
def Runs (w : Workspace) (x : Work α) (r : Except Fault α) (w' : Workspace) : Prop := x.run.run w = (r, w')

theorem Runs.bind {x : Work α} {f : α → Work β} {a : α} {r : Except Fault β} (hx : Runs w x (.ok a) w')
    (hf : Runs w' (f a) r w'') : Runs w (x >>= f) r w'' := by
  rw [Runs, ExceptT.run_bind, StateT.run_bind, hx]
  exact hf

theorem Runs.unique {x : Work α} {r r' : Except Fault α} (h : Runs w x r w') (h' : Runs w x r' w'') :
    w' = w'' :=
  congrArg Prod.snd (Eq.trans (Eq.symm h) h')

theorem get_runs (w : Workspace) : Runs w (getThe Workspace : Work Workspace) (.ok w) w := rfl

/-- The work is a read of the workspace's store, however far that has been read. -/
def OnStore (w : Workspace) (x : Work α) (r : Reading α) : Prop :=
  ∀ s, Runs { w with store := s } x (r.outcome.run s).1 { w with store := (r.outcome.run s).2 }

theorem OnStore.bind {x : Work α} {r : Reading α} {f : α → Work β} {k : α → Reading β} (hx : OnStore w x r)
    (hf : ∀ a, OnStore w (f a) (k a)) : OnStore w (x >>= f) (r >>= k) := by
  intro s
  have hrun := hx s
  rw [run_bind]
  generalize r.outcome.run s = y at hrun ⊢
  rcases y with ⟨f | a, s₁⟩
  · rw [Runs, ExceptT.run_bind, StateT.run_bind, hrun]
    rfl
  · exact hrun.bind (hf a s₁)

theorem onStore_pure (a : α) : OnStore w (pure a) (pure a) := fun _ => rfl

theorem onStore_throw (f : Fault) : OnStore w (throw f : Work α) (throw f) := fun _ => rfl

/-- **Where nothing is held back**, a read meets no misfit. -/
theorem onStore_reading (h : w.held = []) (r : Reading α) : OnStore w (reading r) r := by
  intro s
  have hnone : ∀ s, ({ w with store := s } : Workspace).misfit? = none := by
    intro s
    rw [Workspace.misfit?, h]
    rfl
  refine (get_runs _).bind ?_
  rcases hrun : r.outcome.run s with ⟨e, s₁⟩
  have hsame : r.run.run s = (e, s₁) := hrun
  dsimp only
  rw [hsame]
  dsimp only
  rw [hnone]
  cases e with
  | ok a => rfl
  | error f => cases f <;> rfl

theorem contents_runs (h : w.container? i = some v) : Runs w (contents i) (.ok v) w := by
  refine (get_runs w).bind ?_
  rw [h]
  rfl

theorem inletAt_runs {p : Inlet} (h : w.inlets.lookup i = some p) : Runs w (inletAt i) (.ok p) w := by
  refine (get_runs w).bind ?_
  rw [h]
  rfl

theorem holdsBack_runs (h : w.held = []) (i : Nat) : Runs w (holdsBack i) (.ok false) w := by
  refine (get_runs w).bind ?_
  rw [h]
  rfl

/-- Where no text is bare, values are given out as they are. -/
theorem expose_runs (h : w.bare = []) (v : Value) : Runs w (expose v) (.ok (.value v)) w := by
  cases v with
  | string j ps =>
    refine (get_runs w).bind ?_
    rw [h]
    rfl
  | exception e => rfl
  | null => rfl
  | bool b => rfl
  | number j d => rfl
  | array j items => rfl
  | object j pairs => rfl

end Work

/-! ### Open and terminated containers -/

namespace Value

theorem id?_grow (i : Nat) (p : Piece) (v : Value) : (v.grow i p).id? = v.id? := by
  cases v <;> cases p <;> rfl

end Value

namespace Workspace

/-- A piece is seen wherever the container is held. -/
theorem container?_grow (w : Workspace) (i : Nat) (p : Piece) (j : Nat) :
    (w.grow i p).container? j = (w.container? j).map (Value.grow i p) := by
  unfold Workspace.grow Workspace.container?
  dsimp only
  induction w.names with
  | nil => rfl
  | cons x names ih =>
    obtain ⟨n, r⟩ := x
    rw [List.map_cons, List.findSome?_cons, List.findSome?_cons, ih]
    cases r with
    | channel c => rfl
    | value v =>
      dsimp only
      rw [Value.id?_grow]
      by_cases hv : v.id? = some j
      · rw [if_pos hv, if_pos hv]
        rfl
      · rw [if_neg hv, if_neg hv]

/-- The workspace holds the string or array of an identity, and nothing was put unlooked at into it or into
others. -/
structure Holds (w : Workspace) (i : Nat) (v : Value) : Prop where
  row       : v.IsRow i
  container : w.container? i = some v
  held      : w.held = []
  bare      : w.bare = []

/-- The string or array takes more pieces: no end waits in it. -/
structure Open (w : Workspace) (i : Nat) (v : Value) : Prop extends w.Holds i v where
  known : i < w.store.next
  inlet : ∃ p : Inlet, w.inlets.lookup i = some p ∧ p.closed = false ∧ p.spreading = false
  ended : (w.store.get i).ended = false
  ends  : (w.store.get i).ends = some []
  taken : (w.store.get i).taken ≤ v.pieces.length
  apart : v.Apart i

/-- The string or array is terminated: its end waits behind all pieces, or has been taken there. -/
structure Filled (w : Workspace) (i : Nat) (v : Value) : Prop extends w.Holds i v where
  known  : i < w.store.next
  sealed : (w.store.get i).Sealed v.pieces.length

end Workspace

namespace Work

variable {w : Workspace} {i : Nat} {v : Value}

theorem append_runs (h : w.Open i v) (p : Piece) : Runs w (append i p) (.ok ()) (w.grow i p) := by
  obtain ⟨q, hq, -, hquiet⟩ := h.inlet
  have hprogress : Runs w (reading (progress i)) (.ok (w.store.get i)) w := onStore_reading h.held _ w.store
  have hgrow : Runs w (modify (·.grow i p) : Work Unit) (.ok ()) (w.grow i p) := rfl
  refine (holdsBack_runs h.held i).bind ((contents_runs h.container).bind (hprogress.bind ?_))
  rw [h.ends]
  refine hgrow.bind (Runs.bind (inletAt_runs hq) ?_)
  rw [hquiet]
  rfl

/-- Pushes the data one by one, and then ends the container. -/
def fill (i : Nat) (gs : List Given) : Work Unit := do
  gs.forM (push (.container i))
  terminate (.container i)

end Work

namespace Value

variable {i : Nat} {v : Value} {g : Given}

theorem itemsMention_append (i : Nat) (items : List Value) (u : Value) :
    itemsMention i (items ++ [u]) = (itemsMention i items || u.mentions i) := by
  induction items with
  | nil => exact Bool.or_false _
  | cons v items ih => rw [List.cons_append, itemsMention, itemsMention, ih, Bool.or_assoc]

namespace Accepts

variable (h : v.Accepts i g)

include h

theorem pushed {g' : Given} (h' : v.Accepts i g') : (v.pushed g').Accepts i g := by
  cases h with
  | text ht =>
    cases h' with
    | text ht' => exact .text ht
  | item hu =>
    cases h' with
    | item hu' => exact .item hu

theorem isRow : (v.pushed g).IsRow i := by
  cases h with
  | text ht => exact .string _
  | item hu => exact .array _

theorem pieces : (v.pushed g).pieces = v.pieces ++ [g] := by
  cases h <;> exact List.map_append

theorem apart (hv : v.Apart i) : (v.pushed g).Apart i := by
  cases h with
  | text ht => trivial
  | item hu =>
    rw [Apart] at hv
    rw [Value.pushed, Apart, itemsMention_append, hv]
    exact hu

/-- What is pushed becomes a piece, and the container grows by it. -/
theorem piece (hv : v.Apart i) : ∃ p, (∀ s, Answers s (Work.piece v g) p) ∧ v.grow i p = v.pushed g := by
  cases h with
  | @text ps t ht =>
    refine ⟨.text t, fun s => ?_, ?_⟩
    · rw [Work.piece, if_pos ht]
      rfl
    · rw [grow, if_pos rfl]
      rfl
  | @item items u hu =>
    refine ⟨.item u, fun s => ?_, ?_⟩
    · have hvalue : Answers s (Given.value u).toValue u := by
        rw [Given.toValue]
        rfl
      exact hvalue.bind rfl
    · rw [grow, growItems_of_mention hv, if_pos rfl]
      rfl

end Accepts

theorem pieces_filled {gs : List Given} (h : ∀ g ∈ gs, v.Accepts i g) :
    (v.filled gs).pieces = v.pieces ++ gs := by
  induction gs generalizing v with
  | nil => exact (List.append_nil _).symm
  | cons g gs ih =>
    obtain ⟨hg, hgs⟩ := List.forall_mem_cons.1 h
    have hrest := ih fun g' hg' => (hgs g' hg').pushed hg
    rw [hg.pieces, List.append_assoc] at hrest
    exact hrest

end Value

namespace Workspace.Open

open Work

variable {w : Workspace} {i : Nat} {v : Value} {g : Given} {gs : List Given}

/-- **A push puts a piece behind the others.** -/
theorem push (h : w.Open i v) (hg : v.Accepts i g) :
    ∃ w', Runs w (push (.container i) g) (.ok ()) w' ∧ w'.Open i (v.pushed g) := by
  obtain ⟨p, hpiece, hgrow⟩ := hg.piece h.apart
  obtain ⟨q, hq, hopen, hquiet⟩ := h.inlet
  have hread : Runs w (reading (piece v g)) (.ok p) w := by
    have hrun := onStore_reading h.held (piece v g) w.store
    rwa [hpiece w.store] at hrun
  have hrest : Runs w (do
      let p ← reading (piece v g)
      if (← inletAt i).closed then throw .closed
      append i p) (.ok ()) (w.grow i p) := by
    refine hread.bind (Runs.bind (inletAt_runs hq) ?_)
    rw [hopen]
    exact append_runs h p
  refine ⟨w.grow i p, (contents_runs h.container).bind ?_, ?_⟩
  · cases hg with
    | text ht => exact hrest
    | item hu => exact Runs.bind (acts_collect _).run_eq hrest
  · refine ⟨⟨hg.isRow, ?_, h.held, h.bare⟩, h.known, h.inlet, h.ended, h.ends, ?_, hg.apart h.apart⟩
    · rw [container?_grow, h.container, ← hgrow]
      rfl
    · rw [hg.pieces, List.length_append]
      exact Nat.le_add_right_of_le h.taken

theorem pushes (h : w.Open i v) (hgs : ∀ g ∈ gs, v.Accepts i g) :
    ∃ w', Runs w (gs.forM (Work.push (.container i))) (.ok ()) w' ∧ w'.Open i (v.filled gs) := by
  induction gs generalizing w v with
  | nil => exact ⟨w, rfl, h⟩
  | cons g gs ih =>
    obtain ⟨hg, hgs⟩ := List.forall_mem_cons.1 hgs
    obtain ⟨w₁, hpush, hopen⟩ := h.push hg
    obtain ⟨w', hrest, hfilled⟩ := ih hopen fun g' hg' => (hgs g' hg').pushed hg
    exact ⟨w', hpush.bind hrest, hfilled⟩

/-- The end comes behind all pieces. -/
theorem terminate (h : w.Open i v) :
    ∃ w', Runs w (Work.terminate (.container i)) (.ok ()) w' ∧ w'.Filled i v := by
  obtain ⟨p, hp, -, hquiet⟩ := h.inlet
  let w₁ : Workspace := { w with inlets := (i, { p with closed := true }) :: w.inlets.filter (·.1 ≠ i) }
  have hset : Runs w (setInlet i { p with closed := true }) (.ok ()) w₁ := rfl
  have hstop : Runs w₁ (modify (·.stop i) : Work Unit) (.ok ()) (w₁.stop i) := rfl
  have hcontainer : w₁.container? i = some v := h.container
  have hstopped : w₁.stop i = { w₁ with store := w.store.put i { w.store.get i with ends := some [v.size] } } := by
    rw [Workspace.stop, hcontainer]
    dsimp only
    rw [show w₁.store = w.store from rfl, h.ends]
    rfl
  refine ⟨w₁.stop i, Runs.bind (inletAt_runs hp) (hset.bind ?_), ?_⟩
  · rw [hquiet]
    exact (holdsBack_runs (w := w₁) h.held i).bind hstop
  · rw [hstopped]
    refine ⟨⟨h.row, h.container, h.held, h.bare⟩, h.known, ?_⟩
    rw [Store.get_put_self, h.row.size_eq]
    exact ⟨h.taken, fun hended => absurd (h.ended.symm.trans hended) Bool.false_ne_true, fun _ => rfl⟩

/-- **A container that is filled and ended holds what it held and what was pushed**, and its end waits
behind that. -/
theorem fill (h : w.Open i v) (hgs : ∀ g ∈ gs, v.Accepts i g) :
    ∃ w', Runs w (fill i gs) (.ok ()) w' ∧ w'.Filled i (v.filled gs) := by
  obtain ⟨w₁, hpushes, hopen⟩ := h.pushes hgs
  obtain ⟨w', hend, hfilled⟩ := hopen.terminate
  exact ⟨w', hpushes.bind hend, hfilled⟩

end Workspace.Open

namespace Workspace.Holds

open Work

variable {w : Workspace} {i : Nat} {v : Value}

theorem read (h : w.Holds i v) (s : Store) : ({ w with store := s } : Workspace).Holds i v :=
  ⟨h.row, h.container, h.held, h.bare⟩

/-- **Popping is a read of the store.** -/
theorem pop (h : w.Holds i v) : OnStore w (Work.pop (.container i)) v.pop := by
  have hwhole : ∀ k, OnStore w (whole v k) (pure (v.pieceAt k)) := by
    intro k s
    cases h.row with
    | string ps => rfl
    | array items => exact expose_runs (w := { w with store := s }) h.bare _
  rw [Value.pop, h.row.id?_eq]
  intro s
  refine (contents_runs (w := { w with store := s }) h.container).bind ?_
  have htake : OnStore w (reading (take? i v.size)) (take? i v.size) := onStore_reading h.held _
  cases h.row
  all_goals
    refine htake.bind (fun place => ?_) s
    cases place with
    | none => exact onStore_throw _
    | some k => exact hwhole k

end Workspace.Holds

end FilterShell
