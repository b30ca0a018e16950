import FilterShell.Proofs.Eval.Silent
import FilterShell.Proofs.Value.Drained

/-!
# Products

The operands of a product are run one after the other, and their outputs are paired off.  Which of them is
the left one makes no difference to a pair.  So a product commutes if neither operand notices whether the
other has been run before it (`Filter.Interchange`).  New containers get other identities then, so values are
compared without these (`Value.bare`).
-/

namespace FilterShell

variable {s : Store} {o : Outflow} {a b v : Value} {i j : Nat} {us us' : List Value}

/-! ### Values without identities -/

/-- A number; a not-a-number without its sign and payload. -/
def Decimal.bare : Decimal → Decimal
  | .nan _ signaling _ => .nan false signaling 0
  | d                  => d

namespace Value

mutual

/-- A value without identities: containers by their contents, exceptions by their names. -/
def bare : Value → Value
  | .exception e     => .exception { name := e.name }
  | .null            => .null
  | .bool b          => .bool b
  | .number _ d      => .number 0 d.bare
  | .string _ pieces => .string 0 [pieces.flatten]
  | .array _ items   => .array 0 (bareItems items)
  | .object _ pairs  => .object 0 (barePairs pairs)

def bareItems : List Value → List Value
  | []     => []
  | v :: r => bare v :: bareItems r

def barePairs : List (Value × Value) → List (Value × Value)
  | []          => []
  | (k, v) :: r => (bare k, bare v) :: barePairs r

end

theorem bareItems_eq (items : List Value) : bareItems items = items.map bare := by
  induction items with
  | nil => rfl
  | cons v items ih => rw [bareItems, ih, List.map_cons]

theorem isException_bare (v : Value) : v.bare.isException = v.isException := by
  cases v <;> rfl

end Value

/-- An outflow of values without identities. -/
def Outflow.bare (o : Outflow) : Outflow := ⟨o.values.map Value.bare, o.closed⟩

theorem cutAtException_bare (vs : List Value) :
    (cutAtException vs).map Value.bare = cutAtException (vs.map Value.bare) := by
  induction vs with
  | nil => rfl
  | cons v vs ih =>
    rw [List.map_cons, cutAtException, cutAtException, v.isException_bare, ← ih]
    split <;> rfl

theorem Outflow.bare_cut (o : Outflow) : o.cut.bare = o.bare.cut := by
  have hany : (o.values.map Value.bare).any Value.isException = o.values.any Value.isException := by
    simp [List.any_map, Function.comp_def, Value.isException_bare]
  simp [bare, cut, cutAtException_bare, hany]

namespace Decimal

/-- Only not-a-numbers look alike without being the same. -/
theorem bare_eq {a b : Decimal} (h : a.bare = b.bare) :
    a.isNaN = b.isNaN ∧ a.isSignaling = b.isSignaling ∧ (a.isNaN = false → a = b) := by
  cases a <;> cases b <;> simp_all [bare, isNaN, isSignaling]

theorem isWhole?_bare (d : Decimal) : d.bare.isWhole? = d.isWhole? := by
  cases d <;> rfl

theorem toInt_bare (d : Decimal) : d.bare.toInt = d.toInt := by
  cases d <;> rfl

theorem rounded_nan {d : Decimal} (h : d.isNaN) (hquiet : d.isSignaling = false) :
    d.rounded.map bare = .ok (.nan false false 0) := by
  cases d with
  | nan negative signaling payload =>
    rw [show signaling = false from hquiet]
    rfl
  | _ => cases h

/-- A not-a-number makes the product one. -/
theorem mul_nan {a b : Decimal} (h : (a.isNaN || b.isNaN) = true) :
    (a.mul b).map bare = if a.isSignaling || b.isSignaling then .error .invalidOperation
      else .ok (.nan false false 0) := by
  have hmul : ∀ r, nanResult? a b = some r → a.mul b = r := by
    intro r hr
    unfold mul
    rw [hr]
  by_cases hsignaling : (a.isSignaling || b.isSignaling) = true
  · rw [hmul _ (by rw [nanResult?, if_pos hsignaling]), if_pos hsignaling]
    rfl
  have hquiet : a.isSignaling = false ∧ b.isSignaling = false := by simpa using hsignaling
  rw [if_neg hsignaling]
  by_cases ha : a.isNaN
  · rw [hmul _ (by rw [nanResult?, if_neg hsignaling, if_pos ha])]
    exact rounded_nan ha hquiet.1
  · have hb : b.isNaN := by simpa [ha] using h
    rw [hmul _ (by rw [nanResult?, if_neg hsignaling, if_neg ha, if_pos hb])]
    exact rounded_nan hb hquiet.2

/-- Numbers are multiplied in either order. -/
theorem mul_comm_of_isNaN {a b : Decimal} (ha : a.isNaN = false) (hb : b.isNaN = false) :
    b.mul a = a.mul b := by
  cases a <;> cases b <;>
    simp_all [mul, nanResult?, isNaN, isSignaling, bne_comm, Nat.mul_comm, Int.add_comm]

/-- **Multiplying numbers commutes**, the payloads of not-a-numbers aside. -/
theorem mul_comm_bare {a b a' b' : Decimal} (ha : a.bare = a'.bare) (hb : b.bare = b'.bare) :
    (a.mul b).map bare = (b'.mul a').map bare := by
  obtain ⟨hnan, hsignaling, hsame⟩ := bare_eq ha
  obtain ⟨hnan', hsignaling', hsame'⟩ := bare_eq hb
  by_cases h : (a.isNaN || b.isNaN) = true
  · have h' : (b'.isNaN || a'.isNaN) = true := by rw [← hnan, ← hnan', Bool.or_comm, h]
    rw [mul_nan h, mul_nan h', hsignaling, hsignaling', Bool.or_comm]
  · have hnumbers : a.isNaN = false ∧ b.isNaN = false := by simpa using h
    rw [← hsame hnumbers.1, ← hsame' hnumbers.2, mul_comm_of_isNaN hnumbers.1 hnumbers.2]

end Decimal

/-! ### Whole containers -/

/-- The identity of a string or an array, and how many pieces it has. -/
def Value.extent? : Value → Option (Nat × Nat)
  | .string id pieces => some (id, pieces.length)
  | .array id items   => some (id, items.length)
  | _                 => none

/-- Strings and arrays among the values have their ends behind everything that was put into them. -/
structure Store.Whole (s : Store) (values : List Value) : Prop where
  stop : ∀ v ∈ values, ∀ id n, v.extent? = some (id, n) → (s.get id).stop? n = some n
  size : ∀ v ∈ values, ∀ w ∈ values, ∀ id m n, v.extent? = some (id, m) → w.extent? = some (id, n) →
    m = n

/-- They do so also when one of them has been read. -/
theorem Store.Whole.drain {values : List Value} (h : s.Whole values)
    (hv : v ∈ values) {id n : Nat} (hextent : v.extent? = some (id, n)) :
    ∃ s', Reading.Gives s (Reading.drain id n) n s' ∧ s'.Whole values := by
  obtain ⟨s', hdrain, -, hsame, hstop⟩ := Reading.drain_stop (h.stop v hv id n hextent)
  refine ⟨s', hdrain, fun w hw i m hw' => ?_, h.size⟩
  by_cases hi : i = id
  · subst hi
    rw [h.size w hw v hv i m n hw' hextent]
    exact hstop
  · rw [hsame i hi]
    exact h.stop w hw i m hw'

theorem Store.whole_unread {values : List Value} (h : ∀ id, s.get id = {})
    (hsize : ∀ v ∈ values, ∀ w ∈ values, ∀ id m n, v.extent? = some (id, m) → w.extent? = some (id, n) →
      m = n) : s.Whole values := by
  refine ⟨fun _ _ id n _ => ?_, hsize⟩
  rw [h id]
  rfl

/-! ### Computations in two stores -/

section Twins

variable {α β α' β' : Type} {vs ws : List Value} {R : α → α' → Prop} {Q : β → β' → Prop}

/-- Both fail alike, or both give results that are related. -/
inductive Agree (R : α → α' → Prop) : Except Fault α → Except Fault α' → Prop
  | ok {a : α} {a' : α'} (h : R a a') : Agree R (.ok a) (.ok a')
  | error (f : Fault) : Agree R (.error f) (.error f)

/-- In stores with whole containers the computations agree, and leave these whole. -/
def Twins (vs ws : List Value) (r : Reading α) (r' : Reading α') (R : α → α' → Prop) : Prop :=
  ∀ s s', s.Whole vs → s'.Whole ws →
    Agree R (r.outcome.run s).1 (r'.outcome.run s').1 ∧
      (r.outcome.run s).2.Whole vs ∧ (r'.outcome.run s').2.Whole ws

namespace Twins

theorem pure {a : α} {a' : α'} (h : R a a') : Twins vs ws (pure a) (pure a') R :=
  fun _ _ hs hs' => ⟨.ok h, hs, hs'⟩

theorem throw (f : Fault) : Twins vs ws (throw f) (throw f) R :=
  fun _ _ hs hs' => ⟨.error f, hs, hs'⟩

theorem bind {r : Reading α} {r' : Reading α'} {k : α → Reading β} {k' : α' → Reading β'}
    (hr : Twins vs ws r r' R) (hk : ∀ a a', R a a' → Twins vs ws (k a) (k' a') Q) :
    Twins vs ws (r >>= k) (r' >>= k') Q := by
  intro s s' hs hs'
  obtain ⟨hagree, hs₁, hs₁'⟩ := hr s s' hs hs'
  rw [Reading.run_bind, Reading.run_bind]
  generalize r.outcome.run s = x at hagree hs₁
  generalize r'.outcome.run s' = x' at hagree hs₁'
  obtain ⟨o, s₁⟩ := x
  obtain ⟨o', s₁'⟩ := x'
  cases hagree with
  | ok h => exact hk _ _ h s₁ s₁' hs₁ hs₁'
  | error f => exact ⟨.error f, hs₁, hs₁'⟩

/-- Nothing is done behind a failure. -/
theorem throw_bind (f : Fault) (k : α → Reading β) (k' : α' → Reading β') :
    Twins vs ws (MonadExcept.throw f >>= k) (MonadExcept.throw f >>= k') Q :=
  (throw (R := fun _ _ => False) f).bind fun _ _ h => h.elim

end Twins

end Twins

variable {vs ws : List Value}

/-- Identities aside, the values are the same. -/
def Value.Like (v w : Value) : Prop := v.bare = w.bare

namespace Value.Like

variable {w : Value}

theorem kind (h : v.Like w) : v.kind = w.kind := by
  have hbare : ∀ v : Value, v.bare.kind = v.kind := fun v => by cases v <;> rfl
  rw [← hbare v, h, hbare w]

theorem number {i : Nat} {d : Decimal} (h : (Value.number i d).Like w) :
    ∃ j d', w = .number j d' ∧ d.bare = d'.bare := by
  cases w with
  | number j d' =>
    obtain ⟨-, hd⟩ := Value.number.inj h
    exact ⟨j, d', rfl, hd⟩
  | _ => cases h

theorem string {i : Nat} {ps : List Text} (h : (Value.string i ps).Like w) :
    ∃ j qs, w = .string j qs ∧ ps.flatten = qs.flatten := by
  cases w with
  | string j qs =>
    obtain ⟨-, hqs⟩ := Value.string.inj h
    exact ⟨j, qs, rfl, List.singleton_inj.1 hqs⟩
  | _ => cases h

theorem array {i : Nat} {us : List Value} (h : (Value.array i us).Like w) :
    ∃ j us', w = .array j us' ∧ us.map bare = us'.map bare := by
  cases w with
  | array j us' =>
    obtain ⟨-, hus⟩ := Value.array.inj h
    rw [bareItems_eq, bareItems_eq] at hus
    exact ⟨j, us', rfl, hus⟩
  | _ => cases h

end Value.Like

/-! ### Reading -/

namespace Reading

theorem drain_twins {w : Value} (hv : v ∈ vs) (hw : w ∈ ws) {m n : Nat} (hm : v.extent? = some (i, m))
    (hn : w.extent? = some (j, n)) : Twins vs ws (drain i m) (drain j n) fun a b => a = m ∧ b = n := by
  intro s s' hs hs'
  obtain ⟨s₁, hdrain, hs₁⟩ := hs.drain hv hm
  obtain ⟨s₁', hdrain', hs₁'⟩ := hs'.drain hw hn
  rw [hdrain, hdrain']
  exact ⟨.ok ⟨rfl, rfl⟩, hs₁, hs₁'⟩

theorem wholeText_twins {ps qs : List Text} (hv : .string i ps ∈ vs) (hw : .string j qs ∈ ws)
    (h : ps.flatten = qs.flatten) : Twins vs ws (wholeText i ps) (wholeText j qs) Eq := by
  refine (drain_twins hv hw rfl rfl).bind ?_
  rintro _ _ ⟨rfl, rfl⟩
  rw [List.take_length, List.take_length]
  exact .pure h

theorem allItems_twins (hv : .array i us ∈ vs) (hw : .array j us' ∈ ws)
    (h : us.map Value.bare = us'.map Value.bare) :
    Twins vs ws (allItems i us) (allItems j us') fun a b => a.map Value.bare = b.map Value.bare := by
  refine (drain_twins hv hw rfl rfl).bind ?_
  rintro _ _ ⟨rfl, rfl⟩
  rw [List.take_length, List.take_length]
  exact .pure h

theorem fresh_twins : Twins vs ws fresh fresh fun _ _ => True :=
  fun _ _ hs hs' => ⟨.ok trivial, ⟨hs.stop, hs.size⟩, ⟨hs'.stop, hs'.size⟩⟩

end Reading

namespace Value

theorem ofText_twins (t : Text) : Twins vs ws (ofText t) (ofText t) Like := by
  unfold ofText
  split
  · exact .throw_bind _ _ _
  · exact Reading.fresh_twins.bind fun _ _ _ => .pure rfl

theorem ofItems_twins (h : us.map bare = us'.map bare) :
    Twins vs ws (ofItems us) (ofItems us') Like := by
  refine Reading.fresh_twins.bind fun _ _ _ => .pure ?_
  rw [Like, bare, bare, bareItems_eq, bareItems_eq, h]

theorem ofDecimal_twins {d d' : Decimal} (h : d.bare = d'.bare) :
    Twins vs ws (ofDecimal d) (ofDecimal d') Like := by
  have hlike : ∀ i j, Like (.number i d) (.number j d') := fun i j => by rw [Like, bare, bare, h]
  unfold ofDecimal
  rw [(Decimal.bare_eq h).1]
  split
  · exact Reading.fresh_twins.bind fun _ _ _ => .pure (hlike _ _)
  · exact .pure (hlike _ _)

end Value

/-! ### Pairs -/

namespace Combine

variable {d d' : Decimal}

theorem isWhole_twins (h : d.bare = d'.bare) : Twins vs ws (isWhole d) (isWhole d') Eq := by
  have hsame : d.isWhole? = d'.isWhole? := by rw [← d.isWhole?_bare, h, d'.isWhole?_bare]
  unfold isWhole
  rw [hsame]
  split
  · exact .pure rfl
  · exact .throw _

theorem repeatCount_twins (size : Nat) (n : Int) :
    Twins vs ws (repeatCount size n) (repeatCount size n) Eq := by
  unfold repeatCount
  dsimp only
  split
  · exact .throw_bind _ _ _
  split
  · exact .throw_bind _ _ _
  split
  · exact .throw_bind _ _ _
  · exact .pure rfl

/-- Strings of one text are repeated alike. -/
theorem repeatText_twins {ps qs : List Text} (hv : .string i ps ∈ vs) (hw : .string j qs ∈ ws)
    (hd : d.bare = d'.bare) (h : ps.flatten = qs.flatten) :
    Twins vs ws (repeatText i ps d) (repeatText j qs d') Value.Like := by
  refine (isWhole_twins hd).bind ?_
  rintro whole _ rfl
  cases whole with
  | false => exact .pure rfl
  | true =>
    refine (Reading.wholeText_twins hv hw h).bind ?_
    rintro t _ rfl
    rw [← d.toInt_bare, hd, d'.toInt_bare]
    refine (repeatCount_twins _ _).bind ?_
    rintro n _ rfl
    exact Value.ofText_twins _

theorem repeatItems_twins (hv : .array i us ∈ vs) (hw : .array j us' ∈ ws)
    (hd : d.bare = d'.bare) (h : us.map Value.bare = us'.map Value.bare) :
    Twins vs ws (repeatItems i us d) (repeatItems j us' d') Value.Like := by
  refine (isWhole_twins hd).bind ?_
  rintro whole _ rfl
  cases whole with
  | false => exact .pure rfl
  | true =>
    refine (Reading.allItems_twins hv hw h).bind ?_
    intro xs xs' hxs
    have hlength : xs.length = xs'.length := by simpa using congrArg List.length hxs
    rw [hlength, ← d.toInt_bare, hd, d'.toInt_bare]
    refine (repeatCount_twins _ _).bind ?_
    rintro n _ rfl
    refine Value.ofItems_twins ?_
    rw [List.map_flatten, List.map_flatten, List.map_replicate, List.map_replicate, hxs]

theorem ofDecimal_twins {x x' : Except Decimal.Signal Decimal}
    (h : x.map Decimal.bare = x'.map Decimal.bare) : Twins vs ws (ofDecimal x) (ofDecimal x') Value.Like := by
  cases x with
  | error e => cases x' with
    | error e' =>
      obtain rfl := Except.error.inj h
      exact .throw _
    | ok d' => cases h
  | ok d => cases x' with
    | error e' => cases h
    | ok d' => exact Value.ofDecimal_twins (Except.ok.inj h)

/-- A number can be multiplied by a number, and a string or an array by a number. -/
def fits (k l : Value.Kind) : Bool :=
  k = .number && (l = .number || l = .string || l = .array) || l = .number && (k = .string || k = .array)

theorem fits_comm (k l : Value.Kind) : fits l k = fits k l := by
  cases k <;> cases l <;> rfl

theorem multiply_of_not_fits (h : fits a.kind b.kind = false) :
    multiply a b = return .failure "type" := by
  unfold multiply
  split
  · cases h
  · cases h
  · cases h
  · cases h
  · cases h
  · rfl

/-- **Two values are multiplied in either order.** -/
theorem multiply_twins {a' b' : Value} (ha : a ∈ vs) (hb : b ∈ vs) (ha' : a' ∈ ws) (hb' : b' ∈ ws)
    (hleft : a.Like a') (hright : b.Like b') :
    Twins vs ws (multiply a b) (multiply b' a') Value.Like := by
  have hother : fits a.kind b.kind = false → Twins vs ws (multiply a b) (multiply b' a') Value.Like := by
    intro hfits
    rw [multiply_of_not_fits hfits,
      multiply_of_not_fits (by rw [fits_comm, ← hleft.kind, ← hright.kind, hfits])]
    exact .pure rfl
  cases a with
  | number i x =>
    obtain ⟨i', x', rfl, hx⟩ := hleft.number
    cases b with
    | number j y =>
      obtain ⟨j', y', rfl, hy⟩ := hright.number
      exact ofDecimal_twins (Decimal.mul_comm_bare hx hy)
    | string j qs =>
      obtain ⟨j', qs', rfl, hqs⟩ := hright.string
      exact repeatText_twins hb hb' hx hqs
    | array j us =>
      obtain ⟨j', us', rfl, hus⟩ := hright.array
      exact repeatItems_twins hb hb' hx hus
    | _ => exact hother rfl
  | string i ps => cases b with
    | number j y =>
      obtain ⟨i', ps', rfl, hps⟩ := hleft.string
      obtain ⟨j', y', rfl, hy⟩ := hright.number
      exact repeatText_twins ha ha' hy hps
    | _ => exact hother rfl
  | array i us => cases b with
    | number j y =>
      obtain ⟨i', us', rfl, hus⟩ := hleft.array
      obtain ⟨j', y', rfl, hy⟩ := hright.number
      exact repeatItems_twins ha ha' hy hus
    | _ => exact hother rfl
  | _ => cases b <;> exact hother rfl

/-! ### Outputs paired off -/

/-- The same outputs, in either order; those of one pair are multiplied with whole containers. -/
inductive Mirrors (vs ws : List Value) : Paired → Paired → Prop
  | single {v w : Value} (h : v.Like w) : Mirrors vs ws (.single v) (.single w)
  | both {a b a' b' : Value} (ha : a ∈ vs) (hb : b ∈ vs) (ha' : a' ∈ ws) (hb' : b' ∈ ws) (hleft : a.Like a')
      (hright : b.Like b') : Mirrors vs ws (.both a b) (.both b' a')

variable {xs ys xs' ys' : List Value}

theorem like_getElem? (h : xs.map Value.bare = xs'.map Value.bare) {k : Nat} (hk : k < xs.length) :
    ∃ v ∈ xs, ∃ w ∈ xs', xs[k]? = some v ∧ xs'[k]? = some w ∧ v.Like w := by
  have hlength : xs.length = xs'.length := by simpa using congrArg List.length h
  have hk' : k < xs'.length := hlength ▸ hk
  refine ⟨xs[k], List.getElem_mem hk, xs'[k], List.getElem_mem hk', List.getElem?_eq_getElem hk,
    List.getElem?_eq_getElem hk', ?_⟩
  have hget : (xs.map Value.bare)[k]? = (xs'.map Value.bare)[k]? := by rw [h]
  simpa [hk, hk', Value.Like] using hget

theorem forall₂_filterMap {R : Paired → Paired → Prop} {f g : Nat → Option Paired} {is : List Nat}
    (h : ∀ i ∈ is, ∃ p q, f i = some p ∧ g i = some q ∧ R p q) :
    List.Forall₂ R (is.filterMap f) (is.filterMap g) := by
  induction is with
  | nil => exact .nil
  | cons i is ih =>
    obtain ⟨⟨p, q, hp, hq, hR⟩, his⟩ := List.forall_mem_cons.1 h
    rw [List.filterMap_cons_some hp, List.filterMap_cons_some hq]
    exact .cons hR (ih his)

/-- Both lists start again where they did before. -/
theorem cycle_mirrors (hxs : xs.map Value.bare = xs'.map Value.bare)
    (hys : ys.map Value.bare = ys'.map Value.bare) (hleft : xs ≠ []) (hright : ys ≠ []) :
    List.Forall₂ (Mirrors (xs ++ ys) (ys' ++ xs')) (cycle xs ys) (cycle ys' xs') := by
  have hlength : xs.length = xs'.length := by simpa using congrArg List.length hxs
  have hlength' : ys.length = ys'.length := by simpa using congrArg List.length hys
  rw [cycle, cycle, ← hlength, ← hlength', Nat.max_comm ys.length]
  refine forall₂_filterMap fun i _ => ?_
  obtain ⟨a, ha, a', ha', hgeta, hgeta', hlikea⟩ :=
    like_getElem? hxs (Nat.mod_lt i (List.length_pos_of_ne_nil hleft))
  obtain ⟨b, hb, b', hb', hgetb, hgetb', hlikeb⟩ :=
    like_getElem? hys (Nat.mod_lt i (List.length_pos_of_ne_nil hright))
  refine ⟨.both a b, .both b' a', by simp [hgeta, hgetb], by simp [hgeta', hgetb'], ?_⟩
  exact .both (List.mem_append_left _ ha) (List.mem_append_right _ hb) (List.mem_append_right _ ha')
    (List.mem_append_left _ hb') hlikea hlikeb

theorem singles_mirrors (h : xs.map Value.bare = xs'.map Value.bare) :
    List.Forall₂ (Mirrors vs ws) (xs.map .single) (xs'.map .single) := by
  rw [← List.forall₂_eq_eq_eq, List.forall₂_map_left_iff, List.forall₂_map_right_iff] at h
  rw [List.forall₂_map_left_iff, List.forall₂_map_right_iff]
  exact h.imp fun _ _ => .single

theorem paired_nil (xs : List Value) : paired xs [] = xs.map .single := by
  cases xs <;> rfl

/-- Pairs of exchanged operands are mirrored. -/
theorem paired_mirrors (hxs : xs.map Value.bare = xs'.map Value.bare)
    (hys : ys.map Value.bare = ys'.map Value.bare) :
    List.Forall₂ (Mirrors (xs ++ ys) (ys' ++ xs')) (paired xs ys) (paired ys' xs') := by
  by_cases hleft : xs = []
  · obtain rfl : xs' = [] := by simpa [hleft] using hxs.symm
    rw [hleft, paired_nil]
    exact singles_mirrors hys
  by_cases hright : ys = []
  · obtain rfl : ys' = [] := by simpa [hright] using hys.symm
    rw [hright, paired_nil]
    exact singles_mirrors hxs
  have hleft' : xs' ≠ [] := by
    rintro rfl
    exact hleft (by simpa using hxs)
  have hright' : ys' ≠ [] := by
    rintro rfl
    exact hright (by simpa using hys)
  simpa [paired, hleft, hright, hleft', hright'] using cycle_mirrors hxs hys hleft hright

theorem yields_both {op : Value → Value → Reading Value} {ps : List Paired}
    {s₁ : Store} (h : Reading.Gives s (op a b) v s₁) (ho : Yields (all op ps) s₁ o) :
    Yields (all op (.both a b :: ps)) s (.andThen ⟨[v], true⟩ o) := by
  have hone : Reading.Gives s (do return [← op a b]) [v] s₁ := h.bind rfl
  exact .of_run (Produced.run_gives_andThen hone _) (ho.behind [v])

theorem yields_both_fails {op : Value → Value → Reading Value} {f : Fault} {s₁ : Store}
    (h : Reading.Fails s (op a b) f s₁) (ps : List Paired) :
    Yields (all op (.both a b :: ps)) s f.outflow :=
  .of_run (Produced.run_fails_andThen h.bind _) (yields_ofFault f s₁)

/-- Behind values that are alike, what is alike is still so. -/
theorem bare_behind {w : Value} (h : v.Like w) {o' : Outflow} (ho : o.bare = o'.bare) :
    (Outflow.andThen ⟨[v], true⟩ o).bare = (Outflow.andThen ⟨[w], true⟩ o').bare := by
  obtain ⟨hvalues, hclosed⟩ := Outflow.mk.inj ho
  simp only [Outflow.bare, Outflow.andThen, if_true, List.cons_append, List.nil_append, List.map_cons, hvalues,
    hclosed]
  rw [show v.bare = w.bare from h]

/-- **Outputs are multiplied in either order.** -/
theorem all_mirrors {ps qs : List Paired} (h : List.Forall₂ (Mirrors vs ws) ps qs) {s' : Store}
    (hs : s.Whole vs) (hs' : s'.Whole ws) :
    ∃ o o', Yields (all multiply ps) s o ∧ Yields (all multiply qs) s' o' ∧ o.bare = o'.bare := by
  induction h generalizing s s' with
  | nil => exact ⟨_, _, yields_ofValues [] s, yields_ofValues [] s', rfl⟩
  | cons hp _ ih => cases hp with
    | single hlike =>
      obtain ⟨o, o', ho, ho', hsame⟩ := ih hs hs'
      exact ⟨_, _, ho.behind [_], ho'.behind [_], bare_behind hlike hsame⟩
    | @both a b a' b' ha hb ha' hb' hleft hright =>
      obtain ⟨hagree, hs₁, hs₁'⟩ := multiply_twins ha hb ha' hb' hleft hright s s' hs hs'
      generalize hrun : (multiply a b).outcome.run s = x at hagree hs₁
      generalize hrun' : (multiply b' a').outcome.run s' = x' at hagree hs₁'
      obtain ⟨o, s₁⟩ := x
      obtain ⟨o', s₁'⟩ := x'
      cases hagree with
      | @ok v w hlike =>
        obtain ⟨o, o', ho, ho', hsame⟩ := ih hs₁ hs₁'
        exact ⟨_, _, yields_both hrun ho, yields_both hrun' ho', bare_behind hlike hsame⟩
      | error f => exact ⟨_, _, yields_both_fails hrun _, yields_both_fails hrun' _, rfl⟩

end Combine

/-! ### Filters -/

namespace Filter

/-- The store that a filter leaves. -/
def after (f : Filter) (input : Stream) (s : Store) : Store := ((f.run input).run s).2

/-- Each of the filters gives the same whether the other has been run before it or not, and in either order
strings and arrays are left whole. -/
structure Interchange (f g : Filter) (input : Stream) (s : Store) : Prop where
  left   : (f.outflow input s).bare = (f.outflow input (g.after input s)).bare
  right  : (g.outflow input (f.after input s)).bare = (g.outflow input s).bare
  whole  : (g.after input (f.after input s)).Whole (f.outputs input s ++ g.outputs input (f.after input s))
  whole' : (f.after input (g.after input s)).Whole (g.outputs input s ++ f.outputs input (g.after input s))

/-- A product of operands that both end, and one of operands that do not. -/
theorem yields_combined {f g : Filter} {input : Stream} (hlive : input.drained = false)
    (h : Yields (Combine.all Combine.multiply
        (Combine.paired (f.outputs input s) (g.outputs input (f.after input s))))
      (g.after input (f.after input s)) o) :
    Yields (Generate.combined Combine.multiply f.run g.run input) s
      (if (f.outflow input s).closed && (g.outflow input (f.after input s)).closed then o
      else ⟨[], false⟩) := by
  have hrun : (Generate.combined Combine.multiply f.run g.run input).run s =
      let first := (f.run input.copy).run s
      (if !first.1.closed then return .waiting
      else do
        let second ← g.run (input.next first.1.rest)
        if !second.closed then return .waiting
        Combine.all Combine.multiply (Combine.paired first.1.outputs second.outputs) :
          StateM Store Produced).run first.2 := rfl
  refine Yields.of_run hrun ?_
  rw [Stream.copy_live hlive, Stream.next_live hlive]
  -- whether an operand ends is asked of its run, and said of what flows out of it
  have hfirst : ((f.run input).run s).1.closed = (f.outflow input s).closed := rfl
  have hsecond : ((g.run input).run ((f.run input).run s).2).1.closed =
      (g.outflow input (f.after input s)).closed := rfl
  rw [hfirst]
  cases (f.outflow input s).closed with
  | false => exact yields_waiting _
  | true =>
    rw [Bool.not_true, if_neg Bool.false_ne_true, yields_bind, hsecond]
    cases (g.outflow input (f.after input s)).closed with
    | false => exact yields_waiting _
    | true => exact h

/-- **Products commute.**  On an input without exceptions, two filters that may be interchanged have the same
product in either order, up to the first exception. -/
theorem multiply_comm (f g : Filter) (input : Stream) (s : Store)
    (hcalm : ∀ v ∈ input.values, v.isException = false) (hcomplete : input.isComplete = true)
    (h : Interchange f g input.forwarded s) :
    ((binary .multiply f g).outflow input s).bare = ((binary .multiply g f).outflow input s).bare := by
  obtain ⟨hleft, hends⟩ := Outflow.mk.inj h.left
  obtain ⟨hright, hends'⟩ := Outflow.mk.inj h.right
  obtain ⟨o, o', ho, ho', hsame⟩ :=
    Combine.all_mirrors (Combine.paired_mirrors hleft hright) h.whole h.whole'
  have hproduct : (binary .multiply f g).outflow input s = _ :=
    congrArg (fun r => r.1.outflow) (Yields.run hcalm hcomplete (yields_combined rfl ho))
  have hproduct' : (binary .multiply g f).outflow input s = _ :=
    congrArg (fun r => r.1.outflow) (Yields.run hcalm hcomplete (yields_combined rfl ho'))
  have hboth : ∀ o : Outflow, (input.readInto o).outflow = o := fun _ => rfl
  simp only [hboth] at hproduct hproduct'
  rw [hproduct, hproduct', Outflow.bare_cut, Outflow.bare_cut, hends, hends', Bool.and_comm]
  split
  · rw [hsame]
  · rfl

/-- A product of two outputs and three: a string is repeated, and an array cannot be multiplied by a string. -/
theorem multiply_comm_unequal :
    let f : Filter := .binary .comma (.string "ab") (.array (.number "1" (.ofNat 1)))
    let g : Filter :=
      .binary .comma (.number "2" (.ofNat 2)) (.binary .comma (.string "c") (.number "3" (.ofNat 3)))
    let input : Stream := { values := [.null] }
    Interchange f g input {} ∧
      ((binary .multiply f g).outputs input {}).map Value.kind = [Value.Kind.string, .exception] ∧
      ((binary .multiply f g).outflow input {}).bare = ((binary .multiply g f).outflow input {}).bare := by
  intro f g input
  have h : Interchange f g input {} := by
    refine ⟨rfl, rfl, ?_, ?_⟩
    · change Store.Whole { next := 3 }
        [.string 1 ["ab"], .array 0 [.ofNat 1], .ofNat 2, .string 2 ["c"], .ofNat 3]
      exact Store.whole_unread (fun _ => rfl) (by simp [Value.extent?, Value.ofNat])
    · change Store.Whole { next := 3 }
        [.ofNat 2, .string 0 ["c"], .ofNat 3, .string 2 ["ab"], .array 1 [.ofNat 1]]
      exact Store.whole_unread (fun _ => rfl) (by simp [Value.extent?, Value.ofNat])
  have hcalm : ∀ v ∈ input.values, v.isException = false := by decide
  exact ⟨h, by decide +kernel, multiply_comm f g input {} hcalm rfl h⟩

/-- What one operand reads the other may notice: an object can be the key of another object only after it has
been read. -/
theorem multiply_not_comm :
    let f : Filter := .binary .dot .empty (.string "a")
    let g : Filter := .parens (.conditional [("if", .object (.binary .pair (.binary .dot .empty .empty)
      (.number "1" (.ofNat 1)))), ("then", .number "2" (.ofNat 2)), ("else", .number "3" (.ofNat 3))])
    let input : Stream := { values := [.object 0 [(.string 1 ["a"], .ofNat 1)]] }
    let s : Store := { next := 2 }
    input.values.any Value.isException = false ∧
      ((binary .multiply f g).outputs input s).map Value.kind = [Value.Kind.number] ∧
      ((binary .multiply g f).outputs input s).map Value.kind = [Value.Kind.exception] := by
  decide +kernel

end Filter

end FilterShell
