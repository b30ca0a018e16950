import FilterShell.Proofs.Workspace.Filling

/-!
# The attributes of channels

The attributes of all channels of a workspace, plain ones and containers, are its `Settings`.  To read, to
take and to pass on what waits changes none of them (`Work.Keeps`).  So channels that are split off keep the
attributes that they were made with, and all others keep theirs (`Work.split_plain_gains`,
`Work.split_container_gains`).
-/

namespace FilterShell

variable {w w' : Workspace} {i : Nat}

theorem Attributes.eq_of_get? {x y : Attributes} (h : ∀ a, x.get? a = y.get? a) : x = y := by
  obtain ⟨globals, locals, formats, context⟩ := x
  obtain rfl : globals = y.globals := h .globals
  obtain rfl : locals = y.locals := h .locals
  obtain rfl : formats = y.formats := h .formats
  obtain rfl : context = y.context := h .context
  rfl

/-- The attributes of all channels. -/
structure Settings where
  channels : List Attributes
  inlets   : Nat → Attributes

/-- The attributes of a channel. -/
def Settings.of (e : Settings) : Node → Attributes
  | .plain i      => e.channels[i]?.getD {}
  | .container id => e.inlets id

namespace Workspace

def settings (w : Workspace) : Settings where
  channels := w.channels.map (·.attributes)
  inlets id := ((w.inlets.lookup id).getD .complete).attributes

/-- The attributes of a channel. -/
def attributes (w : Workspace) (n : Node) : Attributes := w.settings.of n

/-- The consumer has met the end of the channel, or the channel was split. -/
def hasEnded (w : Workspace) : Node → Bool
  | .plain i      => (w.channels[i]?.getD {}).ended
  | .container id => (w.store.get id).ended

theorem attributes_plain (w : Workspace) (i : Nat) :
    (w.channels[i]?.getD {}).attributes = w.attributes (.plain i) := by
  rw [attributes, Settings.of, settings, List.getElem?_map]
  cases w.channels[i]? <;> rfl

/-- An attribute that is set can be read. -/
theorem getAttribute_run (w : Workspace) (n : Node) (a : Attribute) :
    (Work.getAttribute n a).run.run w = (((w.attributes n).get? a).elim (.error .nothingWaiting) .ok, w) := by
  have hinlet : ∃ p, Work.Runs w (Work.inlet n) (.ok p) w ∧ p.attributes = w.attributes n := by
    cases n with
    | plain i => exact ⟨_, rfl, w.attributes_plain i⟩
    | container id => exact ⟨_, rfl, rfl⟩
  obtain ⟨p, hrun, hp⟩ := hinlet
  refine hrun.bind ?_
  rw [hp]
  cases (w.attributes n).get? a <;> rfl

theorem getAttribute_eq_iff (w : Workspace) (m n : Node) :
    (∀ a, (Work.getAttribute m a).run.run w = (Work.getAttribute n a).run.run w) ↔
      w.attributes m = w.attributes n := by
  refine ⟨fun h => ?_, fun h a => by rw [getAttribute_run, getAttribute_run, h]⟩
  have hget : ∀ a, (w.attributes m).get? a = (w.attributes n).get? a := by
    intro a
    have hrun := h a
    rw [getAttribute_run, getAttribute_run] at hrun
    generalize (w.attributes m).get? a = x at hrun ⊢
    generalize (w.attributes n).get? a = y at hrun ⊢
    cases x <;> cases y <;> cases hrun <;> rfl
  exact Attributes.eq_of_get? hget

end Workspace

/-! ### Work that sets no attributes -/

namespace Work

variable {α β : Type} {e : Settings}

/-- If the work succeeds where the attributes are these, its result and the attributes then are as the
postcondition says. -/
def Leads (e : Settings) (x : Work α) (Q : α → Settings → Prop) : Prop :=
  ∀ w a w', w.settings = e → Runs w x (.ok a) w' → Q a w'.settings

/-- The work leaves all attributes as they are. -/
def Keeps (e : Settings) (x : Work α) (P : α → Prop) : Prop := Leads e x fun a e' => e' = e ∧ P a

theorem leads_pure {a : α} {Q : α → Settings → Prop} (h : Q a e) : Leads e (pure a) Q := by
  rintro w b w' rfl ⟨⟩
  exact h

theorem leads_throw (f : Fault) {Q : α → Settings → Prop} : Leads e (throw f) Q := by
  rintro w b w' - ⟨⟩

theorem Leads.bind {x : Work α} {f : α → Work β} {P : α → Settings → Prop} {Q : β → Settings → Prop}
    (hx : Leads e x P) (hf : ∀ a e', P a e' → Leads e' (f a) Q) : Leads e (x >>= f) Q := by
  intro w b w' hw hrun
  rw [Runs, ExceptT.run_bind, StateT.run_bind] at hrun
  rcases hfirst : x.run.run w with ⟨f | a, w₁⟩
  · rw [hfirst] at hrun
    cases hrun
  · rw [hfirst] at hrun
    exact hf a _ (hx w a w₁ hw hfirst) w₁ b w' rfl hrun

/-- It does not matter what comes before work that leads there from anywhere. -/
theorem leads_bind {x : Work α} {f : α → Work β} {Q : β → Settings → Prop} (hf : ∀ a e', Leads e' (f a) Q) :
    Leads e (x >>= f) Q :=
  Leads.bind (P := fun _ _ => True) (fun _ _ _ _ _ => trivial) fun a e' _ => hf a e'

theorem Leads.runs {x : Work α} {a : α} {Q : α → Settings → Prop}
    (h : Runs w x (.ok a) w') (hx : Leads w.settings x Q) : Q a w'.settings := hx w a w' rfl h

theorem Keeps.bind {x : Work α} {f : α → Work β} {P : α → Prop} {Q : β → Settings → Prop}
    (hx : Keeps e x P) (hf : ∀ a, P a → Leads e (f a) Q) : Leads e (x >>= f) Q := by
  refine Leads.bind hx ?_
  rintro a e' ⟨rfl, ha⟩
  exact hf a ha

theorem keeps_pure {a : α} {P : α → Prop} (h : P a) : Keeps e (pure a) P := leads_pure ⟨rfl, h⟩

theorem keeps_get : Keeps e (getThe Workspace : Work Workspace) fun w => w.settings = e := by
  rintro w a w' hw ⟨⟩
  exact ⟨hw, hw⟩

theorem keeps_channelAt (i : Nat) : Keeps e (channelAt i) fun c => c.attributes = e.of (.plain i) := by
  refine keeps_get.bind fun w hw => keeps_pure ?_
  rw [← hw]
  exact w.attributes_plain i

theorem keeps_inletAt (id : Nat) : Keeps e (inletAt id) fun p => p.attributes = e.of (.container id) := by
  refine keeps_get.bind fun w hw => keeps_pure ?_
  rw [← hw]
  rfl

theorem set_getD_self (xs : List α) (i : Nat) (d : α) : xs.set i (xs[i]?.getD d) = xs := by
  cases h : xs[i]? with
  | none => exact List.set_eq_of_length_le (List.getElem?_eq_none_iff.1 h)
  | some x =>
    obtain ⟨hi, rfl⟩ := List.getElem?_eq_some_iff.1 h
    exact List.set_getElem_self hi

theorem keeps_setChannel {c : Channel} (h : c.attributes = e.of (.plain i)) :
    Keeps e (setChannel i c) fun _ => True := by
  rintro w a w' rfl ⟨⟩
  refine ⟨congrArg (Settings.mk · _) ?_, trivial⟩
  rw [List.map_set, h]
  exact set_getD_self (w.channels.map (·.attributes)) i {}

theorem keeps_setInlet {id : Nat} {p : Inlet} (h : p.attributes = e.of (.container id)) :
    Keeps e (setInlet id p) fun _ => True := by
  rintro w a w' rfl ⟨⟩
  refine ⟨congrArg (Settings.mk _) (funext fun j => ?_), trivial⟩
  by_cases hj : j = id
  · subst hj
    exact (congrArg (fun q : Option Inlet => (q.getD .complete).attributes) List.lookup_cons_self).trans h
  · have hother : (w.inlets.filter fun x => decide (x.1 ≠ id)).lookup j = w.inlets.lookup j := by
      rw [← lookup_filter hj w.inlets]
      exact congrArg _ (List.filter_congr fun x _ => Bool.eq_iff_iff.2 (by simp))
    rw [List.lookup_cons, beq_eq_false_iff_ne.2 hj]
    exact congrArg (fun q : Option Inlet => (q.getD .complete).attributes) hother

end Work

/-! ### Reading and taking -/

namespace Workspace

theorem settings_grow (w : Workspace) (id : Nat) (p : Piece) : (w.grow id p).settings = w.settings := by
  refine congrArg (Settings.mk · _) ?_
  unfold grow
  rw [List.map_map]
  rfl

theorem settings_stop (w : Workspace) (id : Nat) : (w.stop id).settings = w.settings := by
  unfold stop
  cases w.container? id <;> rfl

/-- What was held back comes without attributes. -/
theorem settings_release (w : Workspace) (id : Nat) (hs : List Held) :
    (w.release id hs).settings = w.settings := by
  fun_induction release w id hs with
  | case1 w p r ih => exact ih.trans (w.settings_grow id p)
  | case2 w r ih => exact ih.trans (w.settings_stop id)
  | case3 => rfl

end Workspace

namespace Work

variable {α β : Type} {e : Settings}

theorem keeps_set (h : w.settings = e) : Keeps e (set w : Work Unit) fun _ => True := by
  rintro _ _ _ - ⟨⟩
  exact ⟨h, trivial⟩

theorem keeps_outcome (x : Except Fault α) : Keeps e (liftM x) fun _ => True := by
  cases x with
  | ok a => exact keeps_pure trivial
  | error f => exact leads_throw f

theorem keeps_reading (r : Reading α) : Keeps e (reading r) fun _ => True := by
  refine keeps_get.bind fun w hw => ?_
  rcases r.run.run w.store with ⟨x, s⟩
  have hstore : ({ w with store := s } : Workspace).settings = e := hw
  dsimp only
  split
  · refine (keeps_set ?_).bind fun _ _ => leads_throw _
    exact (Workspace.settings_release _ _ _).trans hw
  · exact (keeps_set hstore).bind fun _ _ => keeps_outcome _

theorem keeps_expose (v : Value) : Keeps e (expose v) fun _ => True := by
  cases v with
  | string j ps =>
    refine keeps_get.bind fun w _ => ?_
    split <;> exact keeps_pure trivial
  | exception e => exact keeps_pure trivial
  | null => exact keeps_pure trivial
  | bool b => exact keeps_pure trivial
  | number j d => exact keeps_pure trivial
  | array j items => exact keeps_pure trivial
  | object j pairs => exact keeps_pure trivial

theorem keeps_whole (v : Value) (k : Nat) : Keeps e (whole v k) fun _ => True := by
  cases v with
  | string j ps => exact keeps_pure trivial
  | array j items => exact keeps_expose _
  | object j pairs =>
    refine keeps_get.bind fun w _ => ?_
    cases w.wholes.lookup (j, k) with
    | some g => exact keeps_pure trivial
    | none => exact (keeps_reading _).bind fun _ _ => keeps_pure trivial
  | exception e => exact leads_throw _
  | null => exact leads_throw _
  | bool b => exact leads_throw _
  | number j d => exact leads_throw _

theorem keeps_takeRest (id : Nat) (v : Value) (upTo fuel : Nat) :
    Keeps e (takeRest id v upTo fuel) fun _ => True := by
  induction fuel with
  | zero => exact keeps_pure trivial
  | succ fuel ih =>
    refine (keeps_reading _).bind fun progress _ => ?_
    split
    · exact keeps_pure trivial
    · refine (keeps_reading _).bind fun _ _ => ?_
      have hrest : Keeps e (do
          let g ← whole v progress.taken
          return g :: (← takeRest id v upTo fuel)) fun _ => True :=
        (keeps_whole v _).bind fun _ _ => ih.bind fun _ _ => keeps_pure trivial
      cases v with
      | object j pairs => exact (keeps_reading _).bind fun _ _ => hrest
      | _ => exact hrest

/-! ### Giving -/

/-- A way of giving that sets no attributes. -/
def Quiet (e : Settings) (give : Signal → Nat → Work Unit) : Prop := ∀ s i, Keeps e (give s i) fun _ => True

variable {give : Signal → Nat → Work Unit}

theorem keeps_spread (hgive : Quiet e give) (s : Signal) (is : List Nat) :
    Keeps e (spread give s is) fun _ => True := by
  induction is with
  | nil => exact keeps_pure trivial
  | cons i is ih =>
    cases s with
    | stop => exact (hgive .stop i).bind fun _ _ => ih
    | item g =>
      refine (keeps_channelAt i).bind fun c _ => ?_
      split
      · exact keeps_pure trivial
      · exact (keeps_reading _).bind fun v _ => (hgive _ i).bind fun _ _ => ih

theorem quiet_feedFor (fuel : Nat) : Quiet e (feedFor fuel) := by
  induction fuel with
  | zero => exact fun _ _ => keeps_pure trivial
  | succ fuel ih =>
    intro s i
    refine (keeps_channelAt i).bind fun c hc => ?_
    cases hspreading : c.spreading with
    | false =>
      cases s with
      | item g => exact keeps_setChannel hc
      | stop => exact keeps_setChannel hc
    | true =>
      cases s with
      | item g =>
        refine (keeps_spread ih _ _).bind fun all _ => ?_
        cases all with
        | true => exact keeps_pure trivial
        | false => exact keeps_setChannel hc
      | stop =>
        refine Keeps.bind (keeps_setChannel (by exact hc)) fun _ _ => ?_
        exact (keeps_spread ih _ _).bind fun _ _ => keeps_pure trivial

theorem quiet_feed : Quiet e feed := fun s i => keeps_get.bind fun _ _ => quiet_feedFor _ s i

theorem keeps_passOn (id : Nat) (s : Signal) : Keeps e (passOn id s) fun _ => True := by
  refine (keeps_inletAt id).bind fun p hp => (keeps_spread quiet_feed _ _).bind fun all _ => ?_
  cases s with
  | stop => exact keeps_setInlet hp
  | item g =>
    cases all with
    | true => exact keeps_pure trivial
    | false => exact keeps_setInlet hp

theorem keeps_passOnAll (id : Nat) (gs : List Given) :
    Keeps e (gs.forM fun g => passOn id (.item g)) fun _ => True := by
  induction gs with
  | nil => exact keeps_pure trivial
  | cons g gs ih => exact (keeps_passOn id (.item g)).bind fun _ _ => ih

theorem keeps_spreadWaiting (i fuel : Nat) : Keeps e (spreadWaiting i fuel) fun _ => True := by
  induction fuel with
  | zero => exact keeps_pure trivial
  | succ fuel ih =>
    refine (keeps_channelAt i).bind fun c hc => ?_
    cases c.waiting with
    | nil => exact keeps_pure trivial
    | cons s rest =>
      refine Keeps.bind (keeps_setChannel (by exact hc)) fun _ _ => ?_
      refine (keeps_spread quiet_feed _ _).bind fun all _ => ?_
      cases s with
      | stop => exact keeps_pure trivial
      | item g =>
        cases all with
        | true => exact ih
        | false => exact keeps_pure trivial

end Work

/-! ### New channels -/

namespace Settings

variable {e e' : Settings} {a : Attributes} {count : Nat}

/-- The channel is there. -/
def Has (e : Settings) : Node → Prop
  | .plain i     => i < e.channels.length
  | .container _ => True

/-- With the attributes of new channels behind the others. -/
def more (e : Settings) (as : List Attributes) : Settings := { e with channels := e.channels ++ as }

/-- As many new channels have these attributes, and all others have theirs. -/
structure Gains (e : Settings) (a : Attributes) (count : Nat) (fs : List Nat) (e' : Settings) : Prop where
  length : fs.length = count
  new    : ∀ f ∈ fs, e'.of (.plain f) = a
  old    : ∀ n, e.Has n → e'.of n = e.of n

theorem of_plain (h : e.channels[i]? = some a) : e.of (.plain i) = a :=
  congrArg (Option.getD · ({} : Attributes)) h

theorem of_more (as : List Attributes) {n : Node} (h : e.Has n) : (e.more as).of n = e.of n := by
  cases n with
  | plain i => exact congrArg (Option.getD · {}) (List.getElem?_append_left h)
  | container id => rfl

theorem gains_more (a : Attributes) (count : Nat) :
    e.Gains a count (List.range' e.channels.length count) (e.more (List.replicate count a)) where
  length := List.length_range'
  new f hf := by
    obtain ⟨hle, hlt⟩ := List.mem_range'_1.1 hf
    exact of_plain ((List.getElem?_append_right hle).trans (List.getElem?_replicate_of_lt (by omega)))
  old n hn := of_more _ hn

theorem gains_same (a : Attributes) (count : Nat) :
    e.Gains a count (List.replicate count e.channels.length) (e.more [a]) where
  length := List.length_replicate
  new f hf := by
    rw [List.eq_of_mem_replicate hf]
    exact of_plain List.getElem?_concat_length
  old n hn := of_more _ hn

end Settings

namespace Work

variable {α β : Type} {e : Settings} {count : Nat}

theorem leads_newChannel (c : Channel) :
    Leads e (newChannel c) fun i e' => i = e.channels.length ∧ e' = e.more [c.attributes] := by
  rintro w i w' rfl ⟨⟩
  refine ⟨(List.length_map _).symm, congrArg (Settings.mk · _) ?_⟩
  exact List.map_append

/-- New channels come behind all others. -/
theorem leads_newChannels (c : Channel) (n : Nat) :
    Leads e ((List.replicate n ()).mapM fun _ => newChannel c) fun is e' =>
      is = List.range' e.channels.length n ∧ e' = e.more (List.replicate n c.attributes) := by
  induction n generalizing e with
  | zero =>
    refine leads_pure ⟨rfl, ?_⟩
    rw [List.replicate_zero, Settings.more, List.append_nil]
  | succ n ih =>
    rw [List.replicate_succ, List.mapM_cons]
    refine (leads_newChannel c).bind ?_
    rintro i _ ⟨rfl, rfl⟩
    refine ih.bind ?_
    rintro is _ ⟨rfl, rfl⟩
    refine leads_pure ⟨?_, ?_⟩
    · rw [Settings.more, List.length_append]
      rfl
    · rw [Settings.more, Settings.more, Settings.more, List.append_assoc]
      rfl

theorem keeps_values (items : List Given) :
    Keeps e (items.mapM fun g => reading g.toValue) fun _ => True := by
  induction items with
  | nil => exact keeps_pure trivial
  | cons g items ih =>
    rw [List.mapM_cons]
    exact (keeps_reading _).bind fun _ _ => ih.bind fun _ _ => keeps_pure trivial

theorem leads_offspring (count : Nat) (items : List Given) (a : Attributes) :
    Leads e (offspring count items a) fun fs e' =>
      fs = List.range' e.channels.length count ∧ e' = e.more (List.replicate count a) :=
  (keeps_values items).bind fun _ _ => leads_newChannels _ count

/-- The channels that are split off from one that has ended. -/
theorem leads_finished : Leads e (do
    if count = 0 then return []
    return List.replicate count (← newChannel .finished)) (e.Gains ({} : Attributes).completed count) := by
  by_cases hcount : count = 0
  · rw [if_pos hcount]
    exact leads_pure ⟨hcount.symm, List.forall_mem_nil _, fun _ _ => rfl⟩
  · rw [if_neg hcount]
    refine (leads_newChannel .finished).bind ?_
    rintro i _ ⟨rfl, rfl⟩
    exact leads_pure (e.gains_same _ count)

theorem Runs.of_bind {w₁ : Workspace} {x : Work α} {f : α → Work β} {a : α} {r : Except Fault β}
    (hx : Runs w x (.ok a) w₁) (h : Runs w (x >>= f) r w') : Runs w₁ (f a) r w' := by
  rw [Runs, ExceptT.run_bind, StateT.run_bind, hx] at h
  exact h

theorem progress_runs (w : Workspace) (id : Nat) :
    Runs w (reading (Reading.progress id)) (.ok (w.store.get id)) w := rfl

/-- **A split channel passes on its attributes**, or none. -/
theorem split_plain_gains {fs : List Nat} (hi : w.settings.Has (.plain i))
    (h : Runs w (split (.plain i) count) (.ok fs) w') :
    w.settings.Gains (if w.hasEnded (.plain i) then ({} : Attributes).completed else w.attributes (.plain i))
      count fs w'.settings := by
  have hchannel : Runs w (channelAt i) (.ok (w.channels[i]?.getD {})) w := rfl
  have hrun := hchannel.of_bind h
  cases hended : w.hasEnded (.plain i) with
  | true =>
    rw [show (w.channels[i]?.getD {}).ended = true from hended] at hrun
    exact Leads.runs hrun leads_finished
  | false =>
    rw [show (w.channels[i]?.getD {}).ended = false from hended] at hrun
    refine Leads.runs hrun ?_
    have hrest : (w.channels[i]?.getD {}).detach.2.attributes = w.attributes (.plain i) := w.attributes_plain i
    rcases hdetach : (w.channels[i]?.getD {}).detach with ⟨items, rest⟩
    rw [hdetach] at hrest
    refine (keeps_setChannel hrest).bind fun _ _ => (leads_offspring count items _).bind ?_
    rintro fs e' ⟨rfl, rfl⟩
    rw [w.attributes_plain i]
    refine Keeps.bind (keeps_setChannel ?_) fun _ _ =>
      (keeps_spreadWaiting i _).bind fun _ _ => leads_pure (Settings.gains_more _ count)
    exact hrest.trans (Settings.of_more _ hi).symm

theorem split_container_gains {id : Nat} {fs : List Nat}
    (h : Runs w (split (.container id) count) (.ok fs) w') :
    w.settings.Gains (if w.hasEnded (.container id) then ({} : Attributes).completed
      else w.attributes (.container id)) count fs w'.settings := by
  cases hv : w.container? id with
  | none =>
    have hfails : Runs w (contents id) (.error .noOperation) w := by
      refine (get_runs w).bind ?_
      rw [hv]
      rfl
    rw [Runs, split, ExceptT.run_bind, StateT.run_bind, hfails] at h
    cases h
  | some v =>
    have hrun := (progress_runs w id).of_bind ((contents_runs hv).of_bind h)
    cases hended : w.hasEnded (.container id) with
    | true =>
      rw [show (w.store.get id).ended = true from hended] at hrun
      exact Leads.runs hrun leads_finished
    | false =>
      rw [show (w.store.get id).ended = false from hended] at hrun
      refine Leads.runs hrun (keeps_get.bind fun w₁ _ => ?_)
      split
      · -- A misfit waits, and the split fails.
        exact leads_bind fun _ _ => leads_bind fun _ _ => leads_bind fun _ _ => leads_bind fun _ _ =>
          leads_throw _
      · refine (keeps_reading _).bind fun _ _ => (keeps_takeRest _ _ _ _).bind fun items _ => ?_
        refine (keeps_inletAt id).bind fun p hp => (leads_offspring count items _).bind ?_
        rintro fs e' ⟨rfl, rfl⟩
        refine Keeps.bind (keeps_setInlet (by exact hp)) fun _ _ => ?_
        rw [hp]
        have hgains := w.settings.gains_more (w.attributes (.container id)) count
        split
        · exact leads_pure hgains
        · refine (keeps_reading _).bind fun _ _ => (keeps_reading _).bind fun _ _ => ?_
          refine (keeps_takeRest _ _ _ _).bind fun later _ => (keeps_passOnAll id later).bind fun _ _ => ?_
          exact (keeps_passOn id .stop).bind fun _ _ => leads_pure hgains

end Work

end FilterShell
