import FilterShell.Channel.Basic
import Mathlib.Data.List.Basic
import Mathlib.Logic.Relation

/-!
# Splitting a channel while it is in use

To split a channel is to put a mark into its queue, to take the signals up to the first end out of it, to
make new channels of these, and to pass on whatever comes later, up to the next end.  Meanwhile the producer
goes on pushing, and the consumers pop from the new channels.  `Splitting.Step` are the single steps of all
of them, in any order; `Splitting.Inv` says where the items are, and every step keeps it.
-/

namespace FilterShell

variable {g : Given} {i k : Nat} {r : List Signal} {P : Nat → Follower → Prop}

/-! ### Queues -/

/-- The items of a queue. -/
def Signal.items (queue : List Signal) : List Given :=
  queue.filterMap fun
    | .item g => some g
    | .stop   => none

/-- A queue of items with ends behind them. -/
def Signal.lined (gs : List Given) (k : Nat) : List Signal := gs.map .item ++ List.replicate k .stop

namespace Signal

theorem items_lined (gs : List Given) (k : Nat) : items (lined gs k) = gs := by
  induction gs with
  | nil =>
    rw [lined, List.map_nil, List.nil_append]
    induction k with
    | zero => rfl
    | succ k ih => exact ih
  | cons g gs ih => exact congrArg (g :: ·) ih

theorem lined_push (gs : List Given) (g : Given) : lined gs 0 ++ [.item g] = lined (gs ++ [g]) 0 := by
  simp [lined]

theorem lined_stop (gs : List Given) (k : Nat) : lined gs k ++ [.stop] = lined gs (k + 1) := by
  rw [lined, List.append_assoc, ← List.replicate_succ']
  rfl

/-- A mark behind all signals is as good as one in front of the ends. -/
theorem lined_mark (gs : List Given) (k : Nat) :
    lined gs k ++ [.stop] = gs.map .item ++ .stop :: lined [] k := by
  rw [lined_stop]
  rfl

theorem lined_eq_item {gs : List Given}
    (h : lined gs k = .item g :: r) : ∃ gs', gs = g :: gs' ∧ r = lined gs' k := by
  cases gs with
  | nil => cases k <;> cases h
  | cons g' gs =>
    cases h
    exact ⟨gs, rfl, rfl⟩

theorem lined_eq_stop {gs : List Given} (h : lined gs k = .stop :: r) :
    gs = [] ∧ ∃ k', k = k' + 1 ∧ r = lined [] k' := by
  cases gs with
  | nil => cases k with
    | zero => cases h
    | succ k =>
      cases h
      exact ⟨rfl, k, rfl, rfl⟩
  | cons g gs => cases h

theorem lined_eq_nil {gs : List Given} (h : lined gs k = []) : gs = [] ∧ k = 0 := by
  cases gs with
  | nil => cases k with
    | zero => exact ⟨rfl, rfl⟩
    | succ k => cases h
  | cons g gs => cases h

theorem stop_mem_lined {gs : List Given} (h : .stop ∈ lined gs k) : 0 < k := by
  cases k with
  | zero => simp [lined] at h
  | succ k => exact Nat.succ_pos k

end Signal

namespace Channel

open Signal

/-- Channels that have been pushed to, ended and popped from. -/
inductive Arises : Channel → Prop
  | new (a : Attributes) : Arises { attributes := a }
  | push {c : Channel} (v : Value) (h : Arises c) (hopen : c.closed = false) :
      Arises (c.put (.item (.value v)))
  | close {c : Channel} (h : Arises c) : Arises c.close
  | pop {c : Channel} (h : Arises c) : Arises c.pop.2

/-- The ends are behind the items, and there are some if the producer has ended the channel. -/
def Lined (c : Channel) (gs : List Given) (k : Nat) : Prop :=
  c.waiting = lined gs k ∧ (c.closed = true ↔ 0 < k)

theorem Lined.push {c : Channel} {gs : List Given} (h : c.Lined gs k)
    (hopen : c.closed = false) (g : Given) : (c.put (.item g)).Lined (gs ++ [g]) 0 := by
  obtain ⟨hwaiting, hclosed⟩ := h
  obtain rfl : k = 0 := by
    rw [hopen] at hclosed
    simpa using hclosed
  refine ⟨?_, hclosed⟩
  rw [← lined_push, ← hwaiting]
  rfl

theorem Lined.close {c : Channel} {gs : List Given} (h : c.Lined gs k) :
    c.close.Lined gs (k + 1) := by
  refine ⟨?_, by simp [Channel.close]⟩
  rw [← lined_stop, ← h.1]
  rfl

theorem pop_item {c : Channel} (hopen : c.ended = false)
    (h : c.waiting = .item g :: r) : c.pop = (.ok g, { c with waiting := r }) := by
  rw [pop, hopen, h]
  rfl

theorem pop_stop {c : Channel} (hopen : c.ended = false)
    (h : c.waiting = .stop :: r) : c.pop = (.error .exhausted, { c with waiting := r, ended := true }) := by
  rw [pop, hopen, h]
  rfl

theorem pop_nil {c : Channel} (hopen : c.ended = false) (h : c.waiting = []) :
    c.pop = (.error .nothingWaiting, c) := by
  rw [pop, hopen, h]
  rfl

theorem pop_ended {c : Channel} (h : c.ended = true) : c.pop = (.error .exhausted, c) := by
  rw [pop, if_pos h]

theorem pop_inlet {c : Channel} : c.pop.2.toInlet = c.toInlet := by
  unfold pop
  split
  · rfl
  · split <;> rfl

/-- **No item waits behind an end**, and the items are values. -/
theorem Arises.lined {c : Channel} (h : c.Arises) (hopen : c.ended = false) :
    ∃ (vs : List Value) (k : Nat), c.Lined (vs.map .value) k := by
  induction h with
  | new a => exact ⟨[], 0, rfl, by simp⟩
  | push v _ hc ih =>
    obtain ⟨vs, k, hlined⟩ := ih hopen
    refine ⟨vs ++ [v], 0, ?_⟩
    rw [List.map_append]
    exact hlined.push hc (.value v)
  | close _ ih =>
    obtain ⟨vs, k, hlined⟩ := ih hopen
    exact ⟨vs, k + 1, hlined.close⟩
  | @pop c _ ih =>
    cases hended : c.ended with
    | true =>
      rw [pop_ended hended, hended] at hopen
      cases hopen
    | false =>
      obtain ⟨vs, k, hwaiting, hclosed⟩ := ih hended
      cases hc : c.waiting with
      | nil =>
        rw [pop_nil hended hc]
        exact ⟨vs, k, hwaiting, hclosed⟩
      | cons s r => cases s with
        | stop =>
          rw [pop_stop hended hc] at hopen
          cases hopen
        | item g =>
          obtain ⟨gs, hgs, rfl⟩ := lined_eq_item (hwaiting.symm.trans hc)
          obtain ⟨v, vs', rfl, -, rfl⟩ := List.map_eq_cons_iff.1 hgs
          rw [pop_item hended hc]
          exact ⟨vs', k, rfl, hclosed⟩

end Channel

/-! ### Steps -/

namespace Splitting

open Signal

/-- A channel that was split off, and what its consumer has popped from it. -/
structure Follower where
  channel   : Channel
  delivered : List Given := []

/-- The consumer pops. -/
def Follower.pop (f : Follower) : Follower :=
  match f.channel.pop with
  | (.ok g, c)    => { channel := c, delivered := f.delivered ++ [g] }
  | (.error _, c) => { f with channel := c }

/-- What the splitter is at. -/
inductive Phase where
  /-- The mark has not been put yet. -/
  | marking
  /-- What waits is taken, up to the first end. -/
  | draining (taken : List Given)
  /-- The new channels are made. -/
  | creating (taken : List Given)
  /-- The next signal is waited for. -/
  | fetching
  /-- A signal is passed on, and so many channels have got it. -/
  | passing (s : Signal) (count : Nat)
  | done

structure State where
  source    : Channel
  phase     : Phase
  followers : List Follower
  /-- What the producer has pushed since the beginning. -/
  pushed    : List Given

inductive Actor where
  | producer | splitter | consumer
  deriving DecidableEq

/-- The new channels have been handed out. -/
def Phase.handedOut : Phase → Prop
  | .marking | .draining _ | .creating _ => False
  | .fetching | .passing .. | .done      => True

/-- A step of one of the actors, when a channel is split into `n`.  A pop that would block or that meets an
end again changes nothing, and is no step. -/
inductive Step (n : Nat) : Actor → State → State → Prop
  | push {c φ fs ps} (v : Value) (hopen : c.closed = false) :
      Step n .producer ⟨c, φ, fs, ps⟩ ⟨c.put (.item (.value v)), φ, fs, ps ++ [.value v]⟩
  | terminate {c φ fs ps} : Step n .producer ⟨c, φ, fs, ps⟩ ⟨c.close, φ, fs, ps⟩
  | mark {c fs ps} :
      Step n .splitter ⟨c, .marking, fs, ps⟩ ⟨{ c.put .stop with ended := true }, .draining [], fs, ps⟩
  | take {c gs fs ps g r} (h : c.waiting = .item g :: r) :
      Step n .splitter ⟨c, .draining gs, fs, ps⟩ ⟨{ c with waiting := r }, .draining (gs ++ [g]), fs, ps⟩
  | drained {c gs fs ps r} (h : c.waiting = .stop :: r) :
      Step n .splitter ⟨c, .draining gs, fs, ps⟩ ⟨{ c with waiting := r }, .creating gs, fs, ps⟩
  | create {c gs fs ps} (h : fs.length < n) :
      Step n .splitter ⟨c, .creating gs, fs, ps⟩
        ⟨c, .creating gs, fs ++ [⟨{ waiting := gs.map .item, attributes := c.attributes }, []⟩], ps⟩
  | created {c gs fs ps} (h : fs.length = n) :
      Step n .splitter ⟨c, .creating gs, fs, ps⟩ ⟨c, .fetching, fs, ps⟩
  | fetch {c fs ps s r} (h : c.waiting = s :: r) :
      Step n .splitter ⟨c, .fetching, fs, ps⟩ ⟨{ c with waiting := r }, .passing s 0, fs, ps⟩
  | passItem {c g i fs ps f} (hf : fs[i]? = some f) (hopen : f.channel.closed = false) :
      Step n .splitter ⟨c, .passing (.item g) i, fs, ps⟩
        ⟨c, .passing (.item g) (i + 1), fs.set i { f with channel := f.channel.put (.item g) }, ps⟩
  | passStop {c i fs ps f} (hf : fs[i]? = some f) :
      Step n .splitter ⟨c, .passing .stop i, fs, ps⟩
        ⟨c, .passing .stop (i + 1), fs.set i { f with channel := f.channel.close }, ps⟩
  | again {c g fs ps} :
      Step n .splitter ⟨c, .passing (.item g) fs.length, fs, ps⟩ ⟨c, .fetching, fs, ps⟩
  | finish {c fs ps} :
      Step n .splitter ⟨c, .passing .stop fs.length, fs, ps⟩ ⟨c, .done, fs, ps⟩
  | pop {c φ fs ps i f} (hφ : φ.handedOut) (hf : fs[i]? = some f) (hopen : f.channel.ended = false)
      (hwaits : f.channel.waiting ≠ []) :
      Step n .consumer ⟨c, φ, fs, ps⟩ ⟨c, φ, fs.set i f.pop, ps⟩

/-- Steps of all actors, in any order. -/
def Steps (n : Nat) : State → State → Prop := Relation.ReflTransGen fun σ σ' => ∃ a, Step n a σ σ'

/-- A channel that is about to be split. -/
def start (c : Channel) : State := ⟨c, .marking, [], []⟩

/-- Neither the splitter nor a consumer can make a step. -/
def AtRest (n : Nat) (σ : State) : Prop := ∀ a σ', Step n a σ σ' → a = .producer

/-! ### Followers -/

/-- The channel has got these items, and an end behind them if it is closed. -/
structure Follower.Got (f : Follower) (gs : List Given) (closed : Bool) : Prop where
  closed_eq : f.channel.closed = closed
  queue : (f.channel.ended = false ∧ ∃ ws, f.channel.waiting = lined ws closed.toNat ∧
      f.delivered ++ ws = gs) ∨
    (closed = true ∧ f.channel.ended = true ∧ f.channel.waiting = [] ∧ f.delivered = gs)

namespace Follower.Got

variable {f : Follower} {gs : List Given} {closed : Bool}

theorem open_queue (h : f.Got gs false) : f.channel.ended = false ∧
    ∃ ws, f.channel.waiting = lined ws 0 ∧ f.delivered ++ ws = gs := by
  rcases h.queue with hqueue | ⟨hclosed, -⟩
  · exact hqueue
  · cases hclosed

theorem put (h : f.Got gs false) (g : Given) :
    Follower.Got { f with channel := f.channel.put (.item g) } (gs ++ [g]) false := by
  obtain ⟨hended, ws, hwaiting, rfl⟩ := h.open_queue
  refine ⟨h.closed_eq, .inl ⟨hended, ws ++ [g], ?_, (List.append_assoc ..).symm⟩⟩
  rw [Bool.toNat_false, ← lined_push, ← hwaiting]
  rfl

theorem close (h : f.Got gs false) :
    Follower.Got { f with channel := f.channel.close } gs true := by
  obtain ⟨hended, ws, hwaiting, rfl⟩ := h.open_queue
  refine ⟨rfl, .inl ⟨hended, ws, ?_, rfl⟩⟩
  rw [Bool.toNat_true, ← lined_stop, ← hwaiting]
  rfl

/-- Popping takes from what waits. -/
theorem pop (h : f.Got gs closed) : f.pop.Got gs closed := by
  obtain ⟨hclosed, ⟨hended, ws, hwaiting, rfl⟩ | ⟨rfl, hended, hwaiting, rfl⟩⟩ := h
  · cases hqueue : f.channel.waiting with
    | nil =>
      rw [Follower.pop, Channel.pop_nil hended hqueue]
      exact ⟨hclosed, .inl ⟨hended, ws, hwaiting, rfl⟩⟩
    | cons s r => cases s with
      | item g =>
        obtain ⟨ws', rfl, rfl⟩ := lined_eq_item (hwaiting.symm.trans hqueue)
        rw [Follower.pop, Channel.pop_item hended hqueue]
        exact ⟨hclosed, .inl ⟨hended, ws', rfl, List.append_assoc ..⟩⟩
      | stop =>
        obtain ⟨rfl, k, hk, rfl⟩ := lined_eq_stop (hwaiting.symm.trans hqueue)
        rw [Follower.pop, Channel.pop_stop hended hqueue, List.append_nil]
        cases closed with
        | false => cases hk
        | true =>
          obtain rfl : k = 0 := by simpa using hk.symm
          exact ⟨hclosed, .inr ⟨rfl, rfl, rfl, rfl⟩⟩
  · rw [Follower.pop, Channel.pop_ended hended]
    exact ⟨hclosed, .inr ⟨rfl, hended, hwaiting, rfl⟩⟩

end Follower.Got

/-! ### The invariant -/

/-- Something is the case with every follower, by its place. -/
def Each (fs : List Follower) (P : Nat → Follower → Prop) : Prop := ∀ j f, fs[j]? = some f → P j f

theorem each_of_forall {fs : List Follower} (h : ∀ f ∈ fs, ∀ j, P j f) :
    Each fs P := fun j f hj => h f (List.mem_of_getElem? hj) j

theorem Each.forall {fs : List Follower} {Q : Follower → Prop}
    (h : Each fs P) (hQ : ∀ j f, j < fs.length → P j f → Q f) : ∀ f ∈ fs, Q f := by
  intro f hf
  obtain ⟨j, hj, rfl⟩ := List.mem_iff_getElem.1 hf
  exact hQ j _ hj (h j _ (List.getElem?_eq_getElem hj))

theorem Each.set {fs : List Follower} {Q : Nat → Follower → Prop} {f : Follower}
    (h : Each fs P) (hf : Q i f) (hother : ∀ j g, j ≠ i → P j g → Q j g) : Each (fs.set i f) Q := by
  intro j g hj
  rw [List.getElem?_set] at hj
  by_cases hij : i = j
  · subst hij
    rw [if_pos rfl] at hj
    split at hj
    · cases hj
      exact hf
    · cases hj
  · rw [if_neg hij] at hj
    exact hother j g (Ne.symm hij) (h j g hj)

theorem forall_set {fs : List Follower} {Q : Follower → Prop} {f : Follower}
    (h : ∀ g ∈ fs, Q g) (hf : Q f) : ∀ g ∈ fs.set i f, Q g := by
  intro g hg
  rcases List.mem_or_eq_of_mem_set hg with hg | rfl
  · exact h g hg
  · exact hf

/-- Of the items that waited at first and those that were pushed later, some have been taken or passed on
and the others wait.  All ends are behind the items, but for the first of them while what is in front of it
is taken. -/
def Inv (n : Nat) (base : List Given) : State → Prop
  | ⟨c, .marking, fs, ps⟩ => fs = [] ∧ ∃ k, c.Lined (base ++ ps) k
  | ⟨c, .draining gs, fs, ps⟩ => fs = [] ∧ ∃ rs rest rs' k, c.waiting = rs.map .item ++ .stop :: rest ∧
      Channel.Lined { c with waiting := rest } rs' k ∧ gs ++ rs ++ rs' = base ++ ps
  | ⟨c, .creating gs, fs, ps⟩ => fs.length ≤ n ∧ ∃ rs k, c.Lined rs k ∧ gs ++ rs = base ++ ps ∧
      ∀ f ∈ fs, f.Got gs false
  | ⟨c, .fetching, fs, ps⟩ => fs.length = n ∧ ∃ gs rs k, c.Lined rs k ∧ gs ++ rs = base ++ ps ∧
      ∀ f ∈ fs, f.Got gs false
  | ⟨c, .passing (.item g) i, fs, ps⟩ => fs.length = n ∧ i ≤ n ∧ ∃ gs rs k, c.Lined rs k ∧
      gs ++ [g] ++ rs = base ++ ps ∧
      Each fs fun j f => f.Got (if j < i then gs ++ [g] else gs) false
  | ⟨c, .passing .stop i, fs, ps⟩ => fs.length = n ∧ i ≤ n ∧ c.closed = true ∧
      Each fs fun j f => f.Got (base ++ ps) (decide (j < i))
  | ⟨c, .done, fs, ps⟩ => fs.length = n ∧ c.closed = true ∧ ∀ f ∈ fs, f.Got (base ++ ps) true

theorem inv_start {c : Channel} (hc : c.Arises) (hopen : c.ended = false) (n : Nat) :
    Inv n (items c.waiting) (start c) := by
  obtain ⟨gs, k, hlined⟩ := hc.lined hopen
  refine ⟨rfl, k, ?_⟩
  rw [hlined.1, items_lined, List.append_nil]
  exact hlined

namespace Inv

variable {n : Nat} {base : List Given} {σ σ' : State} {c : Channel} {φ : Phase} {fs : List Follower}
  {ps gs : List Given}

/-- A push adds an item behind all others. -/
theorem push (h : Inv n base ⟨c, φ, fs, ps⟩) (hopen : c.closed = false) (g : Given) :
    Inv n base ⟨c.put (.item g), φ, fs, ps ++ [g]⟩ := by
  have hlater : ∀ {gs rs : List Given}, gs ++ rs = base ++ ps → gs ++ (rs ++ [g]) = base ++ (ps ++ [g]) := by
    intro gs rs heq
    rw [← List.append_assoc, heq, List.append_assoc]
  have hnever : c.closed ≠ true := by rw [hopen]; exact Bool.false_ne_true
  cases φ with
  | marking =>
    obtain ⟨hfs, k, hlined⟩ := h
    refine ⟨hfs, 0, ?_⟩
    rw [← List.append_assoc]
    exact hlined.push hopen g
  | draining gs =>
    obtain ⟨hfs, rs, rest, rs', k, hwaiting, hlined, heq⟩ := h
    refine ⟨hfs, rs, rest ++ [Signal.item g], rs' ++ [g], 0, ?_, hlined.push hopen g, hlater heq⟩
    rw [Channel.put, hwaiting, List.append_assoc]
    rfl
  | creating gs =>
    obtain ⟨hlength, rs, k, hlined, heq, hall⟩ := h
    exact ⟨hlength, rs ++ [g], 0, hlined.push hopen g, hlater heq, hall⟩
  | fetching =>
    obtain ⟨hlength, gs, rs, k, hlined, heq, hall⟩ := h
    exact ⟨hlength, gs, rs ++ [g], 0, hlined.push hopen g, hlater heq, hall⟩
  | passing s i => cases s with
    | item g' =>
      obtain ⟨hlength, hi, gs, rs, k, hlined, heq, hall⟩ := h
      exact ⟨hlength, hi, gs, rs ++ [g], 0, hlined.push hopen g, hlater heq, hall⟩
    | stop => exact absurd h.2.2.1 hnever
  | done => exact absurd h.2.1 hnever

/-- The producer's end comes behind all items. -/
theorem close (h : Inv n base ⟨c, φ, fs, ps⟩) : Inv n base ⟨c.close, φ, fs, ps⟩ := by
  cases φ with
  | marking =>
    obtain ⟨hfs, k, hlined⟩ := h
    exact ⟨hfs, k + 1, hlined.close⟩
  | draining gs =>
    obtain ⟨hfs, rs, rest, rs', k, hwaiting, hlined, heq⟩ := h
    refine ⟨hfs, rs, rest ++ [Signal.stop], rs', k + 1, ?_, hlined.close, heq⟩
    rw [Channel.close, Channel.put, hwaiting, List.append_assoc]
    rfl
  | creating gs =>
    obtain ⟨hlength, rs, k, hlined, hrest⟩ := h
    exact ⟨hlength, rs, k + 1, hlined.close, hrest⟩
  | fetching =>
    obtain ⟨hlength, gs, rs, k, hlined, hrest⟩ := h
    exact ⟨hlength, gs, rs, k + 1, hlined.close, hrest⟩
  | passing s i => cases s with
    | item g =>
      obtain ⟨hlength, hi, gs, rs, k, hlined, hrest⟩ := h
      exact ⟨hlength, hi, gs, rs, k + 1, hlined.close, hrest⟩
    | stop => exact ⟨h.1, h.2.1, rfl, h.2.2.2⟩
  | done => exact ⟨h.1, rfl, h.2.2⟩

/-- Behind the mark there are the producer's ends, if any. -/
theorem mark (h : Inv n base ⟨c, .marking, fs, ps⟩) :
    Inv n base ⟨{ c.put .stop with ended := true }, .draining [], fs, ps⟩ := by
  obtain ⟨hfs, k, hwaiting, hclosed⟩ := h
  refine ⟨hfs, base ++ ps, lined [] k, [], k, ?_, ⟨rfl, hclosed⟩, by simp⟩
  rw [Channel.put, hwaiting, lined_mark]

theorem take (h : Inv n base ⟨c, .draining gs, fs, ps⟩) (hw : c.waiting = .item g :: r) :
    Inv n base ⟨{ c with waiting := r }, .draining (gs ++ [g]), fs, ps⟩ := by
  obtain ⟨hfs, rs, rest, rs', k, hwaiting, hlined, heq⟩ := h
  cases rs with
  | nil =>
    rw [hw] at hwaiting
    cases hwaiting
  | cons g' rs =>
    rw [hw] at hwaiting
    cases hwaiting
    exact ⟨hfs, rs, rest, rs', k, rfl, hlined, by rw [List.append_assoc gs]; exact heq⟩

/-- The first end may be the mark or the producer's. -/
theorem drained (h : Inv n base ⟨c, .draining gs, fs, ps⟩)
    (hw : c.waiting = .stop :: r) : Inv n base ⟨{ c with waiting := r }, .creating gs, fs, ps⟩ := by
  obtain ⟨rfl, rs, rest, rs', k, hwaiting, hlined, heq⟩ := h
  cases rs with
  | nil =>
    rw [hw] at hwaiting
    cases hwaiting
    rw [List.append_nil] at heq
    exact ⟨Nat.zero_le n, rs', k, hlined, heq, List.forall_mem_nil _⟩
  | cons g rs =>
    rw [hw] at hwaiting
    cases hwaiting

theorem create (h : Inv n base ⟨c, .creating gs, fs, ps⟩) (hlt : fs.length < n) (a : Attributes) :
    Inv n base ⟨c, .creating gs, fs ++ [⟨{ waiting := gs.map .item, attributes := a }, []⟩], ps⟩ := by
  obtain ⟨-, rs, k, hlined, heq, hall⟩ := h
  refine ⟨by rw [List.length_append]; exact hlt, rs, k, hlined, heq, ?_⟩
  intro f hf
  rcases List.mem_append.1 hf with hf | hf
  · exact hall f hf
  · obtain rfl := List.mem_singleton.1 hf
    exact ⟨rfl, .inl ⟨rfl, gs, (List.append_nil _).symm, rfl⟩⟩

/-- An item is passed on from the front; an end is the producer's, and nothing is behind it. -/
theorem fetch {s : Signal} (h : Inv n base ⟨c, .fetching, fs, ps⟩)
    (hw : c.waiting = s :: r) : Inv n base ⟨{ c with waiting := r }, .passing s 0, fs, ps⟩ := by
  obtain ⟨hlength, gs, rs, k, ⟨hwaiting, hclosed⟩, heq, hall⟩ := h
  cases s with
  | item g =>
    obtain ⟨rs, rfl, rfl⟩ := lined_eq_item (hwaiting.symm.trans hw)
    refine ⟨hlength, Nat.zero_le n, gs, rs, k, ⟨rfl, hclosed⟩, by rw [List.append_assoc]; exact heq, ?_⟩
    exact each_of_forall fun f hf _ => hall f hf
  | stop =>
    obtain ⟨rfl, k, rfl, rfl⟩ := lined_eq_stop (hwaiting.symm.trans hw)
    rw [List.append_nil] at heq
    rw [heq] at hall
    exact ⟨hlength, Nat.zero_le n, hclosed.2 k.succ_pos, each_of_forall fun f hf _ => hall f hf⟩

/-- Passing an item on to one follower keeps the invariant. -/
theorem passItem {f : Follower} (h : Inv n base ⟨c, .passing (.item g) i, fs, ps⟩)
    (hf : fs[i]? = some f) :
    Inv n base ⟨c, .passing (.item g) (i + 1), fs.set i { f with channel := f.channel.put (.item g) }, ps⟩ := by
  obtain ⟨hlength, -, gs, rs, k, hlined, heq, hall⟩ := h
  have hi : i < fs.length := (List.getElem?_eq_some_iff.1 hf).1
  refine ⟨by rw [List.length_set]; exact hlength, hlength ▸ hi, gs, rs, k, hlined, heq, hall.set ?_ ?_⟩
  · have hgot : f.Got gs false := by simpa using hall i f hf
    rw [if_pos i.lt_succ_self]
    exact hgot.put g
  · intro j f' hne hgot
    have hiff : j < i + 1 ↔ j < i := by omega
    rw [if_congr hiff rfl rfl]
    exact hgot

theorem passStop {f : Follower} (h : Inv n base ⟨c, .passing .stop i, fs, ps⟩)
    (hf : fs[i]? = some f) :
    Inv n base ⟨c, .passing .stop (i + 1), fs.set i { f with channel := f.channel.close }, ps⟩ := by
  obtain ⟨hlength, -, hclosed, hall⟩ := h
  have hi : i < fs.length := (List.getElem?_eq_some_iff.1 hf).1
  refine ⟨by rw [List.length_set]; exact hlength, hlength ▸ hi, hclosed, hall.set ?_ ?_⟩
  · have hgot : f.Got (base ++ ps) false := by simpa using hall i f hf
    rw [decide_eq_true i.lt_succ_self]
    exact hgot.close
  · intro j f' hne hgot
    have hiff : j < i + 1 ↔ j < i := by omega
    rw [decide_eq_decide.2 hiff]
    exact hgot

theorem again (h : Inv n base ⟨c, .passing (.item g) fs.length, fs, ps⟩) :
    Inv n base ⟨c, .fetching, fs, ps⟩ := by
  obtain ⟨hlength, -, gs, rs, k, hlined, heq, hall⟩ := h
  refine ⟨hlength, gs ++ [g], rs, k, hlined, heq, hall.forall fun j f hj hgot => ?_⟩
  rw [if_pos hj] at hgot
  exact hgot

theorem finish (h : Inv n base ⟨c, .passing .stop fs.length, fs, ps⟩) : Inv n base ⟨c, .done, fs, ps⟩ := by
  obtain ⟨hlength, -, hclosed, hall⟩ := h
  refine ⟨hlength, hclosed, hall.forall fun j f hj hgot => ?_⟩
  rw [decide_eq_true hj] at hgot
  exact hgot

/-- What a follower has got does not change when its consumer pops. -/
theorem pop {i : Nat} {f : Follower} (h : Inv n base ⟨c, φ, fs, ps⟩) (hφ : φ.handedOut)
    (hf : fs[i]? = some f) : Inv n base ⟨c, φ, fs.set i f.pop, ps⟩ := by
  have hlen : (fs.set i f.pop).length = fs.length := List.length_set
  have hmem : f ∈ fs := List.mem_of_getElem? hf
  cases φ with
  | marking | draining | creating => exact hφ.elim
  | fetching =>
    obtain ⟨hlength, gs, rs, k, hlined, heq, hall⟩ := h
    exact ⟨hlen.trans hlength, gs, rs, k, hlined, heq, forall_set hall (hall f hmem).pop⟩
  | passing s j => cases s with
    | item g =>
      obtain ⟨hlength, hi, gs, rs, k, hlined, heq, hall⟩ := h
      exact ⟨hlen.trans hlength, hi, gs, rs, k, hlined, heq,
        hall.set (hall i f hf).pop fun _ _ _ hgot => hgot⟩
    | stop =>
      obtain ⟨hlength, hi, hclosed, hall⟩ := h
      exact ⟨hlen.trans hlength, hi, hclosed, hall.set (hall i f hf).pop fun _ _ _ hgot => hgot⟩
  | done =>
    obtain ⟨hlength, hclosed, hall⟩ := h
    exact ⟨hlen.trans hlength, hclosed, forall_set hall (hall f hmem).pop⟩

/-- **Every step keeps the invariant.** -/
theorem step {a : Actor} (h : Inv n base σ) (hstep : Step n a σ σ') : Inv n base σ' := by
  cases hstep with
  | push v hopen => exact h.push hopen _
  | terminate => exact h.close
  | mark => exact h.mark
  | take hw => exact h.take hw
  | drained hw => exact h.drained hw
  | create hlt => exact h.create hlt _
  | created hlength =>
    obtain ⟨-, rs, k, hrest⟩ := h
    exact ⟨hlength, _, rs, k, hrest⟩
  | fetch hw => exact h.fetch hw
  | passItem hf _ => exact h.passItem hf
  | passStop hf => exact h.passStop hf
  | again => exact h.again
  | finish => exact h.finish
  | pop hφ hf _ _ => exact h.pop hφ hf

theorem steps (h : Inv n base σ) (hsteps : Steps n σ σ') : Inv n base σ' := by
  induction hsteps with
  | refl => exact h
  | tail _ hstep ih =>
    obtain ⟨a, hstep⟩ := hstep
    exact ih.step hstep

end Inv

end Splitting

end FilterShell
