import FilterShell.Proofs.Value.Blind
import FilterShell.Proofs.Value.Discipline
import FilterShell.Session.Print

/-!
# Comparing and writing values blindly

To be still is a discipline, and it covers the values that are known (`covers_known`).  So comparing,
hashing and writing them is still, and printing too.  What is read of an object on the way, its table
included, is the same in stores that are alike.
-/

namespace FilterShell

variable {v : Value}

variable {α : Type} {W : World}

/-- Both parts of a pair are known. -/
def Value.KnownPair (W : World) (p : Value × Value) : Prop := p.1.Known W ∧ p.2.Known W

/-- To be still, as a discipline. -/
def stillness (W : World) : Discipline where
  holds r P := StillTry W r P
  pure := .pure
  throw _ := .throw
  bind := .bind
  rescue := .rescue

open Reading in
/-- **What is known can be read and stays known.** -/
theorem covers_known (W : World) : (stillness W).Covers (Value.Known W) where
  wholeText h := (stillness W).imp (wholeText_still h) fun _ _ => trivial
  allItems h := by
    cases h with
    | array hid hitems =>
      refine (stillness W).imp (allItems_still hid) ?_
      rintro _ rfl
      exact hitems
  item? h k := by
    cases h with
    | array hid hitems =>
      refine (stillness W).imp (item?_still hid k) ?_
      rintro _ rfl v hv
      exact hitems v (List.mem_of_getElem? hv)
  endItems h := by
    cases h with
    | array hid hitems => exact (stillness W).imp (drain_still hid) fun _ _ => trivial
  table h := by
    cases h with
    | object hid hkeys hvalues =>
      refine (stillness W).imp (progress_still hid) fun p _ => ?_
      exact Relations.tableIn_of_pairs (fun p hp => ⟨hkeys p hp, hvalues p hp⟩) p.entries
  takePair? h R hR := by
    cases h with
    | object hid hkeys hvalues =>
      exact hR.takePair?_of_note hkeys (progress_still hid) (note_still hid)

namespace Relations

variable {id : Nat} (hid : W.role id = .object) {pairs : List (Value × Value)}
  (hpairs : ∀ p ∈ pairs, Value.KnownPair W p)

include hid hpairs

theorem mapKeys_still (n : Nat) {f : Value → Reading α} {P : α → Prop}
    (hf : ∀ v, v.Known W → StillTry W (f v) P) :
    StillTry W ((upTo n).mapKeys id pairs f) fun xs => ∀ x ∈ xs, P x :=
  ((covers_known W).upTo n).mapKeys (covers_known W)
    (.object hid (fun p hp => (hpairs p hp).1) fun p hp => (hpairs p hp).2) hf

theorem lookup?_still (n : Nat) {key : Value} (hkey : key.Known W) :
    StillTry W ((upTo n).lookup? id pairs key) fun found => ∀ v ∈ found, v.Known W :=
  ((covers_known W).upTo n).lookup? (covers_known W)
    (.object hid (fun p hp => (hpairs p hp).1) fun p hp => (hpairs p hp).2) hkey

end Relations

namespace Value

open Reading

theorem truth_still (hv : v.Known W) : StillTry W v.truth fun _ => True := by
  unfold truth
  split
  · exact .pure trivial
  · exact .pure trivial
  · exact .pure trivial
  · exact .pure trivial
  · exact StillTry.bind ((covers_known W).length hv) fun _ _ => .pure trivial

theorem pair_still (hv : v.Known W) : StillTry W v.pair (KnownPair W) := by
  unfold pair
  split
  · cases hv with
    | array hid hitems =>
      refine (allItems_still hid).bind ?_
      rintro _ rfl
      split
      · exact .pure ⟨hitems _ (by simp), hitems _ (by simp)⟩
      · exact .throw
  · exact .throw

/-- **Writing a value that is known is still.** -/
theorem text_still (hv : v.Known W) : StillTry W v.text fun _ => True := (covers_known W).text hv

end Value

/-! ### Reading starts no command -/

/-- To leave the system as it is, as a discipline. -/
def sparing : Discipline where
  holds r P := ∀ s, (r.run.run s).2.system = s.system ∧ ∀ a, (r.run.run s).1 = .ok a → P a
  pure h _ := ⟨rfl, by rintro _ ⟨⟩; exact h⟩
  throw _ _ := ⟨rfl, by rintro _ ⟨⟩⟩
  bind {_ _ _ _ r k} hr hk s := by
    obtain ⟨hsystem, hP⟩ := hr s
    rcases hrun : r.run.run s with ⟨e, s₁⟩
    rw [hrun] at hsystem hP
    have hbind : (r >>= k).run.run s = (ExceptT.bindCont k e).run s₁ := by
      rw [ExceptT.run_bind, run_andThen, hrun]
      cases e <;> rfl
    rw [hbind]
    cases e with
    | error f => exact ⟨hsystem, by rintro _ ⟨⟩⟩
    | ok a =>
      obtain ⟨hsystem₁, hQ⟩ := hk a (hP a rfl) s₁
      exact ⟨hsystem₁.trans hsystem, hQ⟩
  rescue {_ _ r handler} hr hhandler s := by
    obtain ⟨hsystem, hP⟩ := hr s
    rw [ExceptT.run_tryCatch, run_andThen]
    rcases hrun : r.run.run s with ⟨e, s₁⟩
    rw [hrun] at hsystem hP
    cases e with
    | error f =>
      obtain ⟨hsystem₁, hP⟩ := hhandler f s₁
      exact ⟨hsystem₁.trans hsystem, hP⟩
    | ok a => exact ⟨hsystem, hP⟩

/-- All values are read without starting a command. -/
theorem covers_sparing : sparing.Covers fun _ => True := by
  have hprogress : ∀ i, sparing.holds (Reading.progress i) fun _ => True :=
    fun _ _ => ⟨rfl, fun _ _ => trivial⟩
  have hnote : ∀ i p, sparing.holds (Reading.note i p) fun _ => True := fun _ _ _ => ⟨rfl, fun _ _ => trivial⟩
  have hdrain : ∀ i n, sparing.holds (Reading.drain i n) fun _ => True :=
    fun i n => sparing.drain_of_note (hprogress i) (hnote i) n
  have hreach : ∀ i n k, sparing.holds (Reading.reach i n k) fun _ => True :=
    fun i n k => sparing.reach_of_note (hprogress i) (hnote i) n k
  constructor
  case wholeText => exact fun _ => sparing.bind (hdrain _ _) fun _ _ => sparing.pure trivial
  case allItems => exact fun _ => sparing.bind (hdrain _ _) fun _ _ => sparing.pure fun _ _ => trivial
  case item? =>
    intro i items _ k
    refine sparing.bind (hreach _ _ _) fun reached _ => ?_
    split
    · exact sparing.pure fun _ _ => trivial
    · exact sparing.pure fun _ _ => trivial
  case endItems => exact fun _ => hdrain _ _
  case table =>
    refine fun {i pairs} _ => sparing.imp (hprogress i) fun p _ => ?_
    exact Relations.tableIn_of_pairs (fun _ _ => ⟨trivial, trivial⟩) p.entries
  case takePair? => exact fun {i _} _ R hR => hR.takePair?_of_note (fun _ _ => trivial) (hprogress i) (hnote i)

/-! ### Printing -/

theorem Lines.ofReading_still {r : Reading (List Text)} (hr : StillTry W r fun _ => True) :
    Still W (Lines.ofReading r) fun _ => True := by
  refine Still.bind hr fun e _ => ?_
  cases e with
  | ok lines => exact .pure trivial
  | error f => exact .pure trivial

theorem Lines.andThen_still (first : Lines) {second : StateM Store Lines}
    (hsecond : Still W second fun _ => True) : Still W (first.andThen second) fun _ => True := by
  unfold Lines.andThen
  split
  · exact .pure trivial
  · exact hsecond.bind fun _ _ => .pure trivial

/-- **Printing values that are known is still.** -/
theorem Session.linesOf_still {vs : List Value} (hvs : ∀ v ∈ vs, v.Known W) :
    Still W (Session.linesOf .plain vs) fun _ => True := by
  induction vs with
  | nil => exact .pure trivial
  | cons v vs ih =>
    obtain ⟨hv, hvs⟩ := List.forall_mem_cons.1 hvs
    have hlines : Still W (Terminal.plain.lines v) fun _ => True :=
      Lines.ofReading_still ((Value.text_still hv).bind fun _ _ => .pure trivial)
    exact hlines.bind fun first _ => first.andThen_still (ih hvs)

/-- **Printing starts no command.** -/
theorem Session.system_linesOf (vs : List Value) (s : Store) :
    ((Session.linesOf .plain vs).run s).2.system = s.system := by
  induction vs generalizing s with
  | nil => rfl
  | cons v vs ih =>
    have htext : sparing.holds (do return [← v.text]) fun _ => True :=
      sparing.bind (covers_sparing.text trivial) fun _ _ => sparing.pure trivial
    have hlines : ((Terminal.plain.lines v).run s).2.system = s.system := by
      refine Eq.trans ?_ (htext s).1
      change ((Lines.ofReading (do return [← v.text])).run s).2.system = _
      rw [Lines.ofReading, run_andThen]
      generalize (do return [← v.text] : Reading (List Text)).run.run s = x
      obtain ⟨e | ls, s₁⟩ := x <;> rfl
    rw [Session.linesOf, run_andThen]
    rcases hrun : (Terminal.plain.lines v).run s with ⟨first, s₁⟩
    rw [hrun] at hlines
    dsimp only at hlines ⊢
    unfold Lines.andThen
    split
    · exact hlines
    · exact (ih s₁).trans hlines

end FilterShell
