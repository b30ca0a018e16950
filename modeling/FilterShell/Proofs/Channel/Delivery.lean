import FilterShell.Proofs.Channel.Splitting
import Mathlib.Algebra.Ring.Nat
import Mathlib.Data.Prod.Lex

/-!
# What a split channel delivers

In whatever order the steps are taken, each new channel gives the items that waited at the split and then
those that were pushed later, in order and each once, and ends behind the last of them.  When the producer
makes no step, the others come to rest, and everything has been delivered (`Splitting.Inv.delivers`).
-/

namespace FilterShell

variable {f : Follower} {gs : List Given} {closed : Bool}

namespace Splitting

open Signal

/-! ### Coming to rest -/

/-- A bound of the steps that the splitter makes when nothing more is pushed. -/
def State.work (n : Nat) : State → Nat
  | ⟨c, .marking, _, _⟩     => (n + 3) * (c.waiting.length + 1) + n + 4
  | ⟨c, .draining _, _, _⟩  => (n + 3) * c.waiting.length + n + 3
  | ⟨c, .creating _, fs, _⟩ => (n + 3) * c.waiting.length + (n - fs.length) + 2
  | ⟨c, .fetching, fs, _⟩   => (fs.length + 3) * c.waiting.length + 1
  | ⟨c, .passing _ i, fs, _⟩ => (fs.length + 3) * c.waiting.length + (fs.length - i) + 2
  | ⟨_, .done, _, _⟩        => 0

/-- How many signals wait for the consumers. -/
def backlog (fs : List Follower) : Nat := (fs.map (·.channel.waiting.length)).sum

theorem backlog_set_lt {fs : List Follower} {i : Nat} {f' : Follower} (hf : fs[i]? = some f)
    (hlt : f'.channel.waiting.length < f.channel.waiting.length) :
    backlog (fs.set i f') < backlog fs := by
  induction fs generalizing i with
  | nil => cases hf
  | cons g fs ih => cases i with
    | zero =>
      cases hf
      exact Nat.add_lt_add_right hlt _
    | succ i => exact Nat.add_lt_add_left (ih hf) _

theorem Follower.pop_length (hopen : f.channel.ended = false)
    (hwaits : f.channel.waiting ≠ []) : f.pop.channel.waiting.length < f.channel.waiting.length := by
  cases hqueue : f.channel.waiting with
  | nil => exact absurd hqueue hwaits
  | cons s r => cases s with
    | item g =>
      rw [Follower.pop, Channel.pop_item hopen hqueue]
      exact r.length.lt_succ_self
    | stop =>
      rw [Follower.pop, Channel.pop_stop hopen hqueue]
      exact r.length.lt_succ_self

section Rest

variable {n : Nat} {base : List Given} {σ σ' : State}

/-- Each step of the splitter leaves less to do. -/
theorem Step.work_lt (h : Step n .splitter σ σ') : σ'.work n < σ.work n := by
  cases h with
  | mark => simp [State.work, Channel.put]
  | take hw => simp [State.work, hw, Nat.mul_succ]
  | drained hw =>
    simp only [State.work, hw, List.length_cons, Nat.mul_succ]
    omega
  | create hlt =>
    simp only [State.work, List.length_append, List.length_singleton]
    omega
  | created hlength => simp [State.work, hlength]
  | fetch hw =>
    simp only [State.work, hw, List.length_cons, Nat.mul_succ]
    omega
  | passItem hf _ | passStop hf =>
    have hi := (List.getElem?_eq_some_iff.1 hf).1
    simp only [State.work, List.length_set]
    omega
  | again => simp [State.work]
  | finish => simp [State.work]

theorem Step.backlog_lt (h : Step n .consumer σ σ') :
    σ'.work n = σ.work n ∧ backlog σ'.followers < backlog σ.followers := by
  cases h with
  | @pop c φ fs ps i f hφ hf hopen hwaits =>
    refine ⟨?_, backlog_set_lt hf (Follower.pop_length hopen hwaits)⟩
    cases φ <;> simp only [State.work, List.length_set]

/-- **Without the producer there are only so many steps.** -/
theorem wellFounded_step (n : Nat) : WellFounded fun σ' σ => ∃ a, a ≠ .producer ∧ Step n a σ σ' := by
  refine Subrelation.wf ?_ (InvImage.wf (fun σ : State => (σ.work n, backlog σ.followers))
    (Prod.lex Nat.lt_wfRel Nat.lt_wfRel).wf)
  rintro σ' σ ⟨a, hne, hstep⟩
  cases a with
  | producer => exact absurd rfl hne
  | splitter => exact .left _ _ hstep.work_lt
  | consumer =>
    obtain ⟨hwork, hlt⟩ := hstep.backlog_lt
    exact Prod.lex_def.2 (.inr ⟨hwork, hlt⟩)

/-- A consumer that can make no step has popped what its channel has got, and the end with it. -/
theorem Follower.Got.at_rest (h : f.Got gs closed)
    (hrest : f.channel.ended = false → f.channel.waiting = []) :
    f.delivered = gs ∧ f.channel.ended = closed := by
  obtain ⟨-, ⟨hended, ws, hwaiting, rfl⟩ | ⟨rfl, hended, -, hdelivered⟩⟩ := h
  · obtain ⟨rfl, hclosed⟩ := lined_eq_nil (hwaiting.symm.trans (hrest hended))
    refine ⟨(List.append_nil _).symm, ?_⟩
    rw [hended, Bool.toNat_eq_zero.1 hclosed]
  · exact ⟨hdelivered, hended⟩

/-- **At rest everything has been delivered.** -/
theorem Inv.at_rest (h : Inv n base σ) (hrest : AtRest n σ) : σ.followers.length = n ∧
    ∀ f ∈ σ.followers, f.delivered = base ++ σ.pushed ∧ f.channel.ended = σ.source.closed := by
  have hsplitter : ∀ {σ'}, ¬ Step n .splitter σ σ' := fun hstep => nomatch hrest _ _ hstep
  have hconsumer : σ.phase.handedOut → ∀ f ∈ σ.followers,
      f.channel.ended = false → f.channel.waiting = [] := by
    intro hφ f hf hended
    obtain ⟨i, hi, rfl⟩ := List.mem_iff_getElem.1 hf
    by_contra hwaits
    cases hrest _ _ (.pop hφ (List.getElem?_eq_getElem hi) hended hwaits)
  obtain ⟨c, φ, fs, ps⟩ := σ
  cases φ with
  | marking => exact absurd .mark hsplitter
  | draining gs =>
    obtain ⟨-, rs, rest, -, -, hwaiting, -⟩ := h
    cases rs with
    | nil => exact absurd (.drained hwaiting) hsplitter
    | cons g rs => exact absurd (.take hwaiting) hsplitter
  | creating gs =>
    rcases h.1.lt_or_eq with hlt | heq
    · exact absurd (.create hlt) hsplitter
    · exact absurd (.created heq) hsplitter
  | fetching =>
    obtain ⟨hlength, gs, rs, k, ⟨hwaiting, hclosed⟩, heq, hall⟩ := h
    cases hw : c.waiting with
    | cons s r => exact absurd (.fetch hw) hsplitter
    | nil =>
      obtain ⟨rfl, rfl⟩ := lined_eq_nil (hwaiting.symm.trans hw)
      refine ⟨hlength, fun f hf => ?_⟩
      obtain ⟨hdelivered, hended⟩ := (hall f hf).at_rest (hconsumer trivial f hf)
      rw [hdelivered, hended, ← heq, List.append_nil]
      exact ⟨rfl, (Bool.eq_false_iff.2 fun hc => Nat.lt_irrefl 0 (hclosed.1 hc)).symm⟩
  | passing s i => cases s with
    | item g =>
      obtain ⟨hlength, hi, gs, rs, k, hlined, heq, hall⟩ := h
      rcases hi.lt_or_eq with hlt | rfl
      · rw [← hlength] at hlt
        have hf := List.getElem?_eq_getElem hlt
        exact absurd (.passItem hf (hall i _ hf).closed_eq) hsplitter
      · rw [← hlength] at hsplitter
        exact absurd .again hsplitter
    | stop =>
      obtain ⟨hlength, hi, -, -⟩ := h
      rcases hi.lt_or_eq with hlt | rfl
      · rw [← hlength] at hlt
        exact absurd (.passStop (List.getElem?_eq_getElem hlt)) hsplitter
      · rw [← hlength] at hsplitter
        exact absurd .finish hsplitter
  | done =>
    obtain ⟨hlength, hclosed, hall⟩ := h
    refine ⟨hlength, fun f hf => ?_⟩
    obtain ⟨hdelivered, hended⟩ := (hall f hf).at_rest (hconsumer trivial f hf)
    exact ⟨hdelivered, hended.trans hclosed.symm⟩

end Rest

/-! ### What is delivered -/

/-- A channel was split whose queue held the items `base`, and others were pushed since.  Each new channel
has given some of all these items, in order and each once, and the next of them wait in it; it is ended only
behind the last one, when the producer has ended the channel.  The splitter and the consumers come to rest,
and then each consumer has got everything. -/
structure Delivers (n : Nat) (base : List Given) (σ : State) : Prop where
  inOrder : ∀ f ∈ σ.followers, f.delivered ++ items f.channel.waiting <+: base ++ σ.pushed
  /-- No item waits behind an end. -/
  behind : ∀ f ∈ σ.followers, ∃ gs k, f.channel.waiting = lined gs k
  closed : ∀ f ∈ σ.followers, f.channel.closed = true ∨ .stop ∈ f.channel.waiting →
    σ.source.closed = true ∧ f.delivered ++ items f.channel.waiting = base ++ σ.pushed
  ended : ∀ f ∈ σ.followers, f.channel.ended = true →
    σ.source.closed = true ∧ f.delivered = base ++ σ.pushed
  comesToRest : Acc (fun σ' σ => ∃ a, a ≠ .producer ∧ Step n a σ σ') σ
  atRest : AtRest n σ → σ.followers.length = n ∧
    ∀ f ∈ σ.followers, f.delivered = base ++ σ.pushed ∧ f.channel.ended = σ.source.closed

section Delivers

variable {n : Nat} {base : List Given} {σ : State}

/-- What a follower has got is what is due from the front; it is closed when it has got all. -/
theorem Inv.got (h : Inv n base σ) (hf : f ∈ σ.followers) :
    ∃ gs closed, f.Got gs closed ∧ gs <+: base ++ σ.pushed ∧
      (closed = true → gs = base ++ σ.pushed ∧ σ.source.closed = true) := by
  obtain ⟨c, φ, fs, ps⟩ := σ
  cases φ with
  | marking | draining =>
    obtain ⟨rfl, -⟩ := h
    cases hf
  | creating gs =>
    obtain ⟨-, rs, k, -, heq, hall⟩ := h
    exact ⟨gs, false, hall f hf, ⟨rs, heq⟩, nofun⟩
  | fetching =>
    obtain ⟨-, gs, rs, k, -, heq, hall⟩ := h
    exact ⟨gs, false, hall f hf, ⟨rs, heq⟩, nofun⟩
  | passing s i =>
    obtain ⟨j, hj, rfl⟩ := List.mem_iff_getElem.1 hf
    have hget := List.getElem?_eq_getElem hj
    cases s with
    | item g =>
      obtain ⟨-, -, gs, rs, k, -, heq, hall⟩ := h
      refine ⟨_, false, hall j _ hget, ?_, nofun⟩
      by_cases hlt : j < i
      · rw [if_pos hlt]
        exact ⟨rs, heq⟩
      · rw [if_neg hlt]
        exact ⟨[g] ++ rs, by rw [← List.append_assoc]; exact heq⟩
    | stop =>
      obtain ⟨-, -, hclosed, hall⟩ := h
      exact ⟨_, _, hall j _ hget, ⟨[], List.append_nil _⟩, fun _ => ⟨rfl, hclosed⟩⟩
  | done =>
    obtain ⟨-, hclosed, hall⟩ := h
    exact ⟨_, true, hall f hf, ⟨[], List.append_nil _⟩, fun _ => ⟨rfl, hclosed⟩⟩

/-- What a follower has got is what it has given and what waits in it. -/
theorem Follower.Got.eq (h : f.Got gs closed) : f.delivered ++ items f.channel.waiting = gs := by
  obtain ⟨-, ⟨-, ws, hwaiting, heq⟩ | ⟨-, -, hwaiting, heq⟩⟩ := h
  · rw [hwaiting, items_lined, heq]
  · rw [hwaiting, heq]
    exact List.append_nil gs

theorem Follower.Got.lined {f : Follower} {gs : List Given} {closed : Bool} (h : f.Got gs closed) :
    ∃ ws k, f.channel.waiting = lined ws k := by
  obtain ⟨-, ⟨-, ws, hwaiting, -⟩ | ⟨-, -, hwaiting, -⟩⟩ := h
  · exact ⟨ws, _, hwaiting⟩
  · exact ⟨[], 0, hwaiting⟩

theorem Follower.Got.closed_of_stop (h : f.Got gs closed)
    (hstop : f.channel.closed = true ∨ .stop ∈ f.channel.waiting) : closed = true := by
  obtain ⟨hclosed, ⟨-, ws, hwaiting, -⟩ | ⟨rfl, -⟩⟩ := h
  · rcases hstop with hstop | hstop
    · exact hclosed.symm.trans hstop
    · rw [hwaiting] at hstop
      have hpos := stop_mem_lined hstop
      cases closed with
      | true => rfl
      | false => cases hpos
  · rfl

theorem Follower.Got.of_ended (h : f.Got gs closed)
    (hended : f.channel.ended = true) : closed = true ∧ f.delivered = gs := by
  obtain ⟨-, ⟨hopen, -⟩ | ⟨hclosed, -, -, heq⟩⟩ := h
  · rw [hended] at hopen
    cases hopen
  · exact ⟨hclosed, heq⟩

/-- The invariant says all that is delivered. -/
theorem Inv.delivers (h : Inv n base σ) : Delivers n base σ where
  inOrder f hf := by
    obtain ⟨gs, closed, hgot, hprefix, -⟩ := h.got hf
    rw [hgot.eq]
    exact hprefix
  behind f hf := by
    obtain ⟨gs, closed, hgot, -⟩ := h.got hf
    exact hgot.lined
  closed f hf hstop := by
    obtain ⟨gs, closed, hgot, -, hall⟩ := h.got hf
    obtain ⟨rfl, hclosed⟩ := hall (hgot.closed_of_stop hstop)
    exact ⟨hclosed, hgot.eq⟩
  ended f hf hended := by
    obtain ⟨gs, closed, hgot, -, hall⟩ := h.got hf
    obtain ⟨hclosed, rfl⟩ := hgot.of_ended hended
    obtain ⟨heq, hsource⟩ := hall hclosed
    exact ⟨hsource, heq⟩
  comesToRest := (wellFounded_step n).apply σ
  atRest := h.at_rest

end Delivers

end Splitting

end FilterShell
