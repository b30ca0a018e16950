import FilterShell.Proofs.Channel.Workspace
import FilterShell.Proofs.Eval.Running
import FilterShell.Proofs.Workspace.Filling
import FilterShell.Workspace.Run

/-!
# Streams and the channels that carry them

A program that splits its input goes by `Stream.split`; a channel is split by `Work.split`.  Both agree:
when a channel carries a stream, each channel that is split off carries a part of the stream's split, and
the channel itself carries what is spent (`Work.split_streams`).  The parts are one and the same channel if
the end of the stream has been met, so a program that has run on the first part leaves `Stream.next` to the
reader of the second (`Work.split_read`).
-/

namespace FilterShell

open Signal Reading

variable {c new : Channel} {input rest : Stream} {cs : List Channel} {i j n k : Nat} {js : List Nat}
  {give : Signal → Nat → Work Unit}

/-- The channel is the stream for a program: its values wait there, its end behind them, and the
attributes make its environment. -/
structure Channel.Carries (c : Channel) (input : Stream) : Prop where
  ended : c.ended = input.drained
  queue : ∃ k, c.waiting = lined (input.values.map .value) k ∧
    (input.drained = false → (input.closed = true ↔ 0 < k))
  sound : input.Sound
  env   : ∀ s, Answers s (Work.environment c.attributes) input.env

namespace Channel

theorem toStop_lined (gs : List Given) (k : Nat) : toStop (lined gs k) = (gs, lined [] (k - 1)) := by
  induction gs with
  | nil => cases k <;> rfl
  | cons g gs ih => exact congrArg (fun found => (g :: found.1, found.2)) ih

theorem isStop_lined (gs : List Given) (k : Nat) : (lined gs k).any isStop = decide (0 < k) := by
  induction gs with
  | nil => cases k <;> rfl
  | cons g gs ih => exact ih

/-- A new channel that has ended carries the empty stream. -/
theorem finished_carries : finished.Carries {} :=
  ⟨rfl, ⟨1, rfl, fun _ => by decide⟩, nofun, fun _ => rfl⟩

/-- A channel that has been used in order carries a stream, as long as its end has not been met. -/
theorem Arises.carries {env : Environment} (h : c.Arises) (hopen : c.ended = false)
    (henv : ∀ s, Answers s (Work.environment c.attributes) env) :
    ∃ vs, c.Carries { values := vs, env, closed := c.closed } := by
  obtain ⟨vs, k, hqueue, hclosed⟩ := h.lined hopen
  exact ⟨vs, hopen, ⟨k, hqueue, fun _ => hclosed⟩, nofun, henv⟩

theorem Carries.spent_eq (h : c.Carries input) (hdrained : input.drained = true) : input.spent = input := by
  obtain ⟨hvalues, hclosed⟩ := h.sound hdrained
  cases input
  cases hvalues
  cases hclosed
  cases hdrained
  rfl

end Channel

namespace Splitting

/-- All followers are alike when nothing has been passed on yet. -/
theorem Shows.follower_of_mem {spreading : Bool} (h : Shows i js spreading cs c (List.replicate n ⟨new, []⟩))
    (hj : j ∈ js) : cs[j]? = some new := by
  obtain ⟨k, hk⟩ := List.mem_iff_getElem?.1 hj
  have hlt := (List.getElem?_eq_some_iff.1 hk).1
  rw [h.length, List.length_replicate] at hlt
  exact (h.follower k j _ hk (List.getElem?_replicate_of_lt hlt)).1

end Splitting

namespace Work

open Splitting

theorem acts_answers {α : Type} {r : Reading α} {x : α} (h : ∀ s, Answers s r x) :
    (reading r).Acts cs (.ok x) cs := by
  intro w
  have hrun : r.run.run w.store = (.ok x, w.store) := h w.store
  refine (get_runs _).bind ?_
  dsimp only
  rw [hrun]
  rfl

/-- A program finds the stream that its channel carries. -/
theorem acts_streamOf (hi : cs[i]? = some c) (h : c.Carries input) :
    (streamOf i).Acts cs (.ok input) cs := by
  obtain ⟨k, hqueue, hclosed⟩ := h.queue
  have hvalues : (Channel.toStop c.waiting).1 = input.values.map .value := by
    rw [hqueue, Channel.toStop_lined]
  have hend : (c.ended || c.waiting.any Signal.isStop) = input.closed := by
    rw [hqueue, Channel.isStop_lined, h.ended]
    cases hdrained : input.drained with
    | true => exact (h.sound hdrained).2.symm
    | false =>
      rw [Bool.false_or, Bool.eq_iff_iff, decide_eq_true_iff]
      exact (hclosed hdrained).symm
  refine (acts_channelAt hi).bind ?_
  rw [hvalues, hend, h.ended]
  exact (acts_mapM_values input.values).bind ((acts_answers h.env).bind (acts_pure _))

theorem streamOf_runs {w : Workspace} (hi : w.channels[i]? = some c) (h : c.Carries input) :
    Runs w (streamOf i) (.ok input) w := acts_streamOf hi h w

/-! ### Splitting -/

/-- The end reaches each of the channels, and no other. -/
theorem acts_spread_stop (hgive : Feeds give) (hnodup : js.Nodup) (hnew : new.spreading = false)
    (h : ∀ j ∈ js, cs[j]? = some new) :
    ∃ cs', (spread give .stop js).Acts cs (.ok true) cs' ∧
      (∀ j ∈ js, cs'[j]? = some new.close) ∧ ∀ j ∉ js, cs'[j]? = cs[j]? := by
  induction js generalizing cs with
  | nil => exact ⟨cs, acts_pure true, nofun, fun _ _ => rfl⟩
  | cons j js ih =>
    obtain ⟨hj, hnodup⟩ := List.nodup_cons.1 hnodup
    have hhead := h j List.mem_cons_self
    have hlt := (List.getElem?_eq_some_iff.1 hhead).1
    have hlater : ∀ k ∈ js, (cs.set j new.close)[k]? = some new := by
      intro k hk
      have hne : j ≠ k := fun heq => hj (heq ▸ hk)
      rw [List.getElem?_set_ne hne]
      exact h k (List.mem_cons_of_mem j hk)
    obtain ⟨cs', hacts, hclosed, hothers⟩ := ih hnodup hlater
    refine ⟨cs', (hgive hhead hnew).bind hacts, ?_, ?_⟩
    · intro k hk
      rcases List.mem_cons.1 hk with rfl | hk
      · rw [hothers k hj, List.getElem?_set_self hlt]
      · exact hclosed k hk
    · intro k hk
      obtain ⟨hne, hk⟩ := not_or.1 (mt List.mem_cons.2 hk)
      rw [hothers k hk, List.getElem?_set_ne (Ne.symm hne)]

section

variable (hi : cs[i]? = some c) (h : c.Carries input)

include hi h

/-- A split of a stream whose end has not been met: channels of their own, each with all that waits. -/
theorem split_streams_live (hlive : input.drained = false) (n : Nat) :
    ∃ cs', (split (.plain i) n).Acts cs (.ok (List.range' cs.length n)) cs' ∧
      (∃ c', cs'[i]? = some c' ∧ c'.Carries input.spent) ∧
      ∀ j ∈ List.range' cs.length n, ∃ c', cs'[j]? = some c' ∧ c'.Carries input := by
  obtain ⟨k, hqueue, hclosed⟩ := h.queue
  have hmark : c.waiting ++ [.stop] = (input.values.map Given.value).map .item ++ .stop :: lined [] k := by
    rw [hqueue, lined_mark]
  have hopen : c.ended = false := h.ended.trans hlive
  have hnew : ∀ c' : Channel, c'.ended = false → c'.attributes = c.attributes →
      c'.waiting = lined (input.values.map .value) (if 0 < k then 1 else 0) → c'.Carries input := by
    intro c' hended hattributes hwaiting
    refine ⟨hended.trans hlive.symm, ⟨_, hwaiting, fun hd => (hclosed hd).trans ?_⟩, h.sound, ?_⟩
    · split <;> omega
    · rw [hattributes]
      exact h.env
  have hshows : Shows i (List.range' cs.length n) (lined [] k).isEmpty
      (opened n i cs { c with waiting := lined [] k, ended := true }
        { waiting := (input.values.map Given.value).map .item, attributes := c.attributes })
      { c with waiting := lined [] k, ended := true } (List.replicate n ⟨_, []⟩) :=
    shows_opened { c with waiting := lined [] k, ended := true } (List.getElem?_eq_some_iff.1 hi).1 rfl
  cases k with
  | zero =>
    refine ⟨_, split_opens hi hopen hmark (acts_pure ()), ⟨_, hshows.source, ?_⟩, ?_⟩
    · exact ⟨rfl, ⟨0, rfl, nofun⟩, fun _ => ⟨rfl, rfl⟩, h.env⟩
    · intro j hj
      exact ⟨_, hshows.follower_of_mem hj, hnew _ rfl rfl (List.append_nil _).symm⟩
  | succ k =>
    have hset : Shows i _ false _ _ _ := hshows.setSource { c with waiting := lined [] k, ended := true }
    obtain ⟨cs', hacts, hends, hothers⟩ :=
      acts_spread_stop feeds_feed hset.nodup rfl fun j hj => hset.follower_of_mem hj
    refine ⟨cs', split_opens hi hopen hmark ((acts_channelAt hshows.source).bind ?_),
      ⟨_, (hothers i hset.apart).trans hset.source, ?_⟩, ?_⟩
    · exact (acts_setChannel i _).bind (hacts.bind (acts_pure ()))
    · exact ⟨rfl, ⟨k, rfl, nofun⟩, fun _ => ⟨rfl, rfl⟩, h.env⟩
    · intro j hj
      exact ⟨_, hends j hj, hnew _ rfl rfl rfl⟩

/-- A split of a stream whose end has been met: one empty channel for all. -/
theorem split_streams_drained (hdrained : input.drained = true) (n : Nat) :
    ∃ cs', (split (.plain i) n).Acts cs (.ok (List.replicate n cs.length)) cs' ∧
      cs'[i]? = some c ∧ (0 < n → cs'[cs.length]? = some .finished) := by
  have hlt := (List.getElem?_eq_some_iff.1 hi).1
  cases n with
  | zero =>
    refine ⟨cs, (acts_channelAt hi).bind ?_, hi, nofun⟩
    rw [h.ended, hdrained]
    exact acts_pure []
  | succ n =>
    refine ⟨cs ++ [.finished], (acts_channelAt hi).bind ?_, ?_, fun _ => ?_⟩
    · rw [h.ended, hdrained]
      exact (acts_newChannel _).bind (acts_pure _)
    · rw [List.getElem?_append_left hlt]
      exact hi
    · exact List.getElem?_concat_length

/-- **Splitting a channel is splitting its stream**: each part carries a copy of the stream, and the
channel what is spent.  The parts are apart from each other, or they are one channel when the end of the
stream has been met. -/
theorem split_streams (n : Nat) :
    ∃ js cs', (split (.plain i) n).Acts cs (.ok js) cs' ∧ js.length = n ∧
      (if input.drained then ∀ j ∈ js, j = cs.length else js.Nodup) ∧
      (streamOf i).Acts cs' (.ok input.spent) cs' ∧
      ∀ j ∈ js, (streamOf j).Acts cs' (.ok input.copy) cs' := by
  cases hdrained : input.drained with
  | false =>
    obtain ⟨cs', hacts, ⟨c', hc', hspent⟩, hparts⟩ := split_streams_live hi h hdrained n
    refine ⟨_, cs', hacts, List.length_range', List.nodup_range', acts_streamOf hc' hspent, fun j hj => ?_⟩
    obtain ⟨c', hj, hpart⟩ := hparts j hj
    rw [Stream.copy_live hdrained]
    exact acts_streamOf hj hpart
  | true =>
    obtain ⟨cs', hacts, hc, hpart⟩ := split_streams_drained hi h hdrained n
    refine ⟨_, cs', hacts, List.length_replicate, fun j hj => List.eq_of_mem_replicate hj, ?_, ?_⟩
    · rw [h.spent_eq hdrained]
      exact acts_streamOf hc h
    · intro j hj
      obtain ⟨hn, rfl⟩ := List.mem_replicate.1 hj
      rw [Stream.copy, hdrained]
      exact acts_streamOf (hpart (Nat.pos_of_ne_zero hn)) Channel.finished_carries

end

/-! ### Reading the parts in turn -/

/-- The channel of a stream after a filter that leaves `rest` of the stream. -/
def leftover (c : Channel) (input rest : Stream) : Channel :=
  let behind := (Channel.toStop c.waiting).2
  { c with
    waiting := if c.ended then c.waiting
      else if rest.drained then behind
      else rest.values.map (fun v => .item (.value v)) ++ (if input.closed then .stop :: behind else [])
    ended := rest.drained }

/-- What a filter leaves is carried on. -/
theorem leftover_carries (h : c.Carries input) (hpart : Program.IsPart rest input) :
    (leftover c input rest).Carries rest := by
  obtain ⟨k, hqueue, hclosed⟩ := h.queue
  refine ⟨rfl, ?_, hpart.sound h.sound, fun s => hpart.env ▸ h.env s⟩
  have hbehind : (Channel.toStop c.waiting).2 = lined [] (k - 1) := by
    rw [hqueue, Channel.toStop_lined]
  rw [leftover, hbehind]
  cases hdrained : rest.drained with
  | true =>
    have hvalues : rest.values = [] := (hpart.sound h.sound hdrained).1
    rw [hvalues]
    cases hended : c.ended with
    | true =>
      refine ⟨k, ?_, nofun⟩
      rw [← (h.sound (h.ended.symm.trans hended)).1]
      exact hqueue
    | false => exact ⟨k - 1, rfl, nofun⟩
  | false =>
    obtain ⟨hlive, hsame⟩ := hpart.live h.sound hdrained
    have hend := hclosed hlive
    rw [h.ended, hlive, hsame]
    refine ⟨k, ?_, fun _ => hend⟩
    have hitems : rest.values.map (fun v => Signal.item (.value v)) =
        (rest.values.map Given.value).map .item := by
      rw [List.map_map]
      rfl
    cases hc : input.closed with
    | true =>
      obtain ⟨k, rfl⟩ := Nat.exists_eq_succ_of_ne_zero (Nat.ne_of_gt (hend.1 hc))
      exact congrArg (· ++ _) hitems
    | false =>
      obtain rfl : k = 0 := by
        rw [hc] at hend
        simpa using hend
      exact congrArg (· ++ _) hitems

/-- A filter leaves the rest of the stream in its channel. -/
theorem runOnPlain_runs (f : Filter) {w : Workspace} (hi : w.channels[i]? = some c) (h : c.Carries input) :
    let run := (f.run input).run w.store
    Runs w (runOnPlain f i) (.ok run.1)
      { w with store := run.2, channels := w.channels.set i (leftover c input run.1.rest) } :=
  Runs.bind (streamOf_runs hi h) (Runs.bind (acts_channelAt hi w) rfl)

/-- **The parts of a split are read in turn** as a program reads them: the first reader finds a copy of the
stream, and the next one a copy too, or what the first has left when the end of the stream has been met. -/
theorem split_read (f : Filter) {w : Workspace} (hi : w.channels[i]? = some c) (h : c.Carries input) :
    let run := (f.run input.copy).run w.store
    ∃ j j' w₁ w₂, Runs w (split (.plain i) 2) (.ok [j, j']) w₁ ∧ Runs w₁ (runOnPlain f j) (.ok run.1) w₂ ∧
      w₂.store = run.2 ∧ Runs w₂ (streamOf j') (.ok (input.next run.1.rest)) w₂ := by
  intro run
  have hpart : Program.IsPart run.1.rest input.copy := f.leaves input.copy w.store
  cases hdrained : input.drained with
  | false =>
    obtain ⟨cs', hacts, -, hparts⟩ := split_streams_live hi h hdrained 2
    obtain ⟨c₁, hc₁, hcarries₁⟩ := hparts w.channels.length (by simp)
    obtain ⟨c₂, hc₂, hcarries₂⟩ := hparts (w.channels.length + 1) (by simp)
    have hcopy : c₁.Carries input.copy := by
      rw [Stream.copy_live hdrained]
      exact hcarries₁
    refine ⟨_, _, _, _, hacts w, runOnPlain_runs (w := { w with channels := cs' }) f hc₁ hcopy, rfl, ?_⟩
    rw [Stream.next_live hdrained]
    refine streamOf_runs ?_ hcarries₂
    rw [List.getElem?_set_ne (Nat.ne_of_lt (Nat.lt_succ_self _))]
    exact hc₂
  | true =>
    obtain ⟨cs', hacts, -, hnew⟩ := split_streams_drained hi h hdrained 2
    have hnew := hnew Nat.two_pos
    have hcopy : Channel.finished.Carries input.copy := by
      rw [Stream.copy, hdrained]
      exact Channel.finished_carries
    refine ⟨_, _, _, _, hacts w, runOnPlain_runs (w := { w with channels := cs' }) f hnew hcopy, rfl, ?_⟩
    rw [Stream.next, hdrained]
    exact streamOf_runs (List.getElem?_set_self (List.getElem?_eq_some_iff.1 hnew).1)
      (leftover_carries hcopy hpart)

end Work

end FilterShell
