import FilterShell.Proofs.Workspace.Attributes

/-!
# Splitting channels of a workspace

A split succeeds if what waits in the channel can be made values (`Workspace.Splittable`).  The new channels
take what they are given, as nobody has ended or split them yet (`Work.Takers`).

They have the attributes of the channel that is split, unless its end has been met.  Then there is one new
channel with an environment of its own, whatever the other one had (`Workspace.split_attributes`).
-/

namespace FilterShell

variable {c : Channel}

/-! ### Data that can be made a value -/

/-- The data can always be made a value. -/
def Given.Fit (g : Given) : Prop := ∀ s, ∃ v s', Reading.Gives s g.toValue v s'

theorem Given.fit_value (v : Value) : (Given.value v).Fit := by
  intro s
  rw [Given.toValue]
  exact ⟨v, s, rfl⟩

theorem Given.fit_text {t : Text} (h : t.isWellFormed = true) : (Given.text t).Fit := by
  intro s
  rw [Given.toValue, Value.ofText, if_neg (by simp [h])]
  exact ⟨_, _, rfl⟩

namespace Work

variable {α β : Type} {cs : List Channel} {fs : List Nat} {g : Given} {i count : Nat}

/-- In every workspace with these channels the work succeeds, and changes nothing but channels and how far
containers have been read. -/
def Fills (cs : List Channel) (x : Work α) (Q : α → List Channel → Prop) : Prop :=
  ∀ w : Workspace, ∃ a s cs', Runs { w with channels := cs } x (.ok a) { w with store := s, channels := cs' } ∧
    Q a cs'

theorem Acts.fills {x : Work α} {a : α} {cs' : List Channel} {Q : α → List Channel → Prop}
    (h : x.Acts cs (.ok a) cs') (ha : Q a cs') : Fills cs x Q := fun w => ⟨a, w.store, cs', h w, ha⟩

theorem Fills.bind {x : Work α} {f : α → Work β} {P : α → List Channel → Prop} {Q : β → List Channel → Prop}
    (hx : Fills cs x P) (hf : ∀ a cs', P a cs' → Fills cs' (f a) Q) : Fills cs (x >>= f) Q := by
  intro w
  obtain ⟨a, s, cs', hrun, ha⟩ := hx w
  obtain ⟨b, s', cs'', hrun', hb⟩ := hf a cs' ha { w with store := s }
  exact ⟨b, s', cs'', hrun.bind hrun', hb⟩

theorem Fills.mono {x : Work α} {P Q : α → List Channel → Prop} (hx : Fills cs x P)
    (h : ∀ a cs', P a cs' → Q a cs') : Fills cs x Q := by
  intro w
  obtain ⟨a, s, cs', hrun, ha⟩ := hx w
  exact ⟨a, s, cs', hrun, h a cs' ha⟩

theorem Acts.andThen {x : Work α} {f : α → Work β} {a : α} {cs' : List Channel} {Q : β → List Channel → Prop}
    (hx : x.Acts cs (.ok a) cs') (hf : Fills cs' (f a) Q) : Fills cs (x >>= f) Q := by
  intro w
  obtain ⟨b, s, cs'', hrun, hb⟩ := hf w
  exact ⟨b, s, cs'', Runs.bind (hx w) hrun, hb⟩

theorem fills_pure {a : α} {Q : α → List Channel → Prop} (h : Q a cs) : Fills cs (pure a) Q :=
  (acts_pure a).fills h

theorem fills_toValue (hg : g.Fit) : Fills cs (reading g.toValue) fun _ cs' => cs' = cs := by
  intro w
  obtain ⟨v, s, hgives⟩ := hg w.store
  refine ⟨v, s, cs, (get_runs _).bind ?_, rfl⟩
  have hrun : g.toValue.run.run w.store = (.ok v, s) := hgives
  dsimp only
  rw [hrun]
  rfl

/-- The channels take items and do not pass them on. -/
def Takers (fs : List Nat) (cs : List Channel) : Prop :=
  ∀ f ∈ fs, ∃ c, cs[f]? = some c ∧ c.spreading = false ∧ c.closed = false

theorem Takers.set (h : Takers fs cs) (hquiet : c.spreading = false) (hopen : c.closed = false)
    (i : Nat) : Takers fs (cs.set i c) := by
  intro f hf
  obtain ⟨d, hd, hflags⟩ := h f hf
  by_cases hi : i = f
  · subst hi
    exact ⟨c, List.getElem?_set_self (List.getElem?_eq_some_iff.1 hd).1, hquiet, hopen⟩
  · exact ⟨d, (List.getElem?_set_ne hi).trans hd, hflags⟩

theorem Takers.set_other (h : Takers fs cs) (hi : i ∉ fs) (c : Channel) : Takers fs (cs.set i c) := by
  intro f hf
  obtain ⟨d, hd, hflags⟩ := h f hf
  exact ⟨d, (List.getElem?_set_ne (by rintro rfl; exact hi hf)).trans hd, hflags⟩

theorem Takers.quiet (h : Takers fs cs) : ∀ f ∈ fs, ∃ c, cs[f]? = some c ∧ c.spreading = false := by
  intro f hf
  obtain ⟨c, hc, hquiet, -⟩ := h f hf
  exact ⟨c, hc, hquiet⟩

/-- An item is given to all channels that take it, and to no others. -/
theorem fills_spread_item (hg : g.Fit) {js : List Nat} (hjs : js ⊆ fs) (h : Takers fs cs) :
    Fills cs (spread feed (.item g) js) fun all cs' =>
      all = true ∧ Takers fs cs' ∧ ∀ j, j ∉ fs → cs'[j]? = cs[j]? := by
  induction js generalizing cs with
  | nil => exact fills_pure ⟨rfl, h, fun _ _ => rfl⟩
  | cons f js ih =>
    obtain ⟨hf, hjs⟩ := List.cons_subset.1 hjs
    obtain ⟨c, hc, hquiet, hopen⟩ := h f hf
    refine (acts_channelAt hc).andThen ?_
    rw [hopen]
    refine (fills_toValue hg).bind ?_
    rintro v _ rfl
    refine (feeds_feed hc hquiet).andThen ?_
    have hgiven := h.set (c := given (.item (.value v)) c) hquiet hopen f
    refine (ih hjs hgiven).mono ?_
    rintro all cs' ⟨hall, htakers, hothers⟩
    refine ⟨hall, htakers, fun j hj => (hothers j hj).trans (List.getElem?_set_ne ?_)⟩
    rintro rfl
    exact hj hf

theorem fills_spread_stop {js : List Nat} (h : ∀ f ∈ js, ∃ c, cs[f]? = some c ∧ c.spreading = false) :
    Fills cs (spread feed .stop js) fun _ _ => True := by
  induction js generalizing cs with
  | nil => exact fills_pure trivial
  | cons f js ih =>
    obtain ⟨⟨c, hc, hquiet⟩, hjs⟩ := List.forall_mem_cons.1 h
    refine (feeds_feed hc hquiet).andThen (ih fun j hj => ?_)
    obtain ⟨d, hd, hquiet'⟩ := hjs j hj
    by_cases hfj : f = j
    · subst hfj
      exact ⟨_, List.getElem?_set_self (List.getElem?_eq_some_iff.1 hc).1, hquiet⟩
    · exact ⟨d, (List.getElem?_set_ne hfj).trans hd, hquiet'⟩

theorem fills_values {items : List Given} (h : ∀ g ∈ items, g.Fit) :
    Fills cs (items.mapM fun g => reading g.toValue) fun _ cs' => cs' = cs := by
  induction items with
  | nil => exact fills_pure rfl
  | cons g items ih =>
    obtain ⟨hg, hitems⟩ := List.forall_mem_cons.1 h
    rw [List.mapM_cons]
    refine (fills_toValue hg).bind ?_
    rintro v _ rfl
    refine (ih hitems).bind ?_
    rintro vs _ rfl
    exact fills_pure rfl

theorem fills_offspring (cs : List Channel) (count : Nat) {items : List Given} (h : ∀ g ∈ items, g.Fit)
    (a : Attributes) :
    Fills cs (offspring count items a) fun fs cs' => fs = List.range' cs.length count ∧
      ∃ c : Channel, c.spreading = false ∧ c.closed = false ∧ cs' = cs ++ List.replicate count c := by
  refine (fills_values h).bind ?_
  rintro vs _ rfl
  exact (acts_newChannels _ count).fills ⟨rfl, _, rfl, rfl, rfl⟩

/-- What waits is passed on to followers that take it. -/
theorem fills_spreadWaiting (hi : cs[i]? = some c) (hapart : i ∉ c.followers)
    (htakers : Takers c.followers cs) (hfit : ∀ g, .item g ∈ c.waiting → g.Fit) (n : Nat) :
    Fills cs (spreadWaiting i n) fun _ _ => True := by
  induction n generalizing cs c with
  | zero => exact fills_pure trivial
  | succ n ih =>
    refine (acts_channelAt hi).andThen ?_
    cases hwaiting : c.waiting with
    | nil => exact fills_pure trivial
    | cons s rest =>
      have hset : (cs.set i { c with waiting := rest })[i]? = some { c with waiting := rest } :=
        List.getElem?_set_self (List.getElem?_eq_some_iff.1 hi).1
      have htakers' := htakers.set_other hapart { c with waiting := rest }
      refine (acts_setChannel i _).andThen ?_
      cases s with
      | stop => exact (fills_spread_stop htakers'.quiet).bind fun _ _ _ => fills_pure trivial
      | item g =>
        have hg : g.Fit := hfit g (by rw [hwaiting]; exact List.mem_cons_self)
        refine (fills_spread_item hg (List.Subset.refl _) htakers').bind ?_
        rintro _ cs' ⟨rfl, htakers'', hothers⟩
        refine ih ((hothers i hapart).trans hset) hapart htakers'' fun g hmem => hfit g ?_
        rw [hwaiting]
        exact List.mem_cons_of_mem _ hmem

/-- What is in front of the first end and what is behind it has been waiting. -/
theorem toStop_subset (ss : List Signal) :
    (∀ g ∈ (Channel.toStop ss).1, .item g ∈ ss) ∧ (Channel.toStop ss).2 ⊆ ss := by
  induction ss with
  | nil => exact ⟨List.forall_mem_nil _, List.Subset.refl _⟩
  | cons s r ih =>
    cases s with
    | stop => exact ⟨List.forall_mem_nil _, List.subset_cons_self _ _⟩
    | item g =>
      refine ⟨List.forall_mem_cons.2 ⟨List.mem_cons_self, fun h hmem => ?_⟩, ?_⟩
      · exact List.mem_cons_of_mem _ (ih.1 h hmem)
      · exact List.Subset.trans ih.2 (List.subset_cons_self _ _)

theorem takers_new (cs : List Channel) (hquiet : c.spreading = false)
    (hopen : c.closed = false) (count : Nat) :
    Takers (List.range' cs.length count) (cs ++ List.replicate count c) := by
  intro f hf
  obtain ⟨hle, hlt⟩ := List.mem_range'_1.1 hf
  exact ⟨c, (List.getElem?_append_right hle).trans (List.getElem?_replicate_of_lt (by omega)), hquiet, hopen⟩

theorem fills_split_plain (hi : cs[i]? = some c) (hopen : c.ended = false)
    (hfit : ∀ g, .item g ∈ c.waiting → g.Fit) : Fills cs (split (.plain i) count) fun _ _ => True := by
  obtain ⟨hitems, hrest⟩ := toStop_subset (c.waiting ++ [.stop])
  have hfit' : ∀ g, .item g ∈ c.waiting ++ [.stop] → g.Fit := by
    intro g hg
    obtain hg | hg := List.mem_append.1 hg
    · exact hfit g hg
    · cases List.mem_singleton.1 hg
  have hlt := (List.getElem?_eq_some_iff.1 hi).1
  refine (acts_channelAt hi).andThen ?_
  rw [hopen]
  refine (acts_setChannel i _).andThen ?_
  refine (fills_offspring _ count (fun g hg => hfit' g (hitems g hg)) c.attributes).bind ?_
  rintro fs _ ⟨rfl, new, hquiet, hopen', rfl⟩
  have hapart : i ∉ List.range' (cs.set i c.detach.2).length count := by
    intro hmem
    have := (List.mem_range'_1.1 hmem).1
    rw [List.length_set] at this
    omega
  have hlt' : i < (cs.set i c.detach.2 ++ List.replicate count new).length := by
    rw [List.length_append, List.length_set]
    omega
  have htakers := (takers_new (cs.set i c.detach.2) hquiet hopen' count).set_other hapart
  exact (acts_setChannel i _).andThen ((fills_spreadWaiting (List.getElem?_set_self hlt') hapart (htakers _)
    (fun g hg => hfit' g (hrest hg)) _).bind fun _ _ _ => fills_pure trivial)

/-! ### Splitting strings and arrays -/

section Rows

variable {w : Workspace} {id : Nat} {v : Value} {p : Inlet}

theorem note_runs (w : Workspace) (id : Nat) (p : Progress) :
    ∃ s, Runs w (reading (Reading.note id p)) (.ok ()) { w with store := s } := ⟨_, rfl⟩

theorem setInlet_runs (w : Workspace) (id : Nat) (p : Inlet) :
    ∃ w₁, Runs w (setInlet id p) (.ok ()) w₁ ∧ w₁.inlets.lookup id = some p ∧ w₁.bare = w.bare ∧
      w₁.channels = w.channels := ⟨_, rfl, List.lookup_cons_self, rfl, rfl⟩

theorem whole_runs (hrow : v.IsRow id) (hfit : ∀ g ∈ v.pieces, g.Fit) (hbare : w.bare = []) (k : Nat) :
    ∃ g, Runs w (whole v k) (.ok g) w ∧ g.Fit := by
  cases hrow with
  | string ps =>
    refine ⟨_, rfl, ?_⟩
    cases hk : ps[k]? with
    | none => exact Given.fit_text rfl
    | some t => exact hfit _ (List.mem_map_of_mem (List.mem_of_getElem? hk))
  | array items => exact ⟨_, expose_runs hbare _, Given.fit_value _⟩

/-- What is left of a row can be taken. -/
theorem takeRest_runs (hrow : v.IsRow id) (hfit : ∀ g ∈ v.pieces, g.Fit) (hbare : w.bare = []) (upTo fuel : Nat) :
    ∃ gs s, Runs w (takeRest id v upTo fuel) (.ok gs) { w with store := s } ∧ ∀ g ∈ gs, g.Fit := by
  induction fuel generalizing w with
  | zero => exact ⟨[], w.store, rfl, List.forall_mem_nil _⟩
  | succ fuel ih =>
    have hprogress := progress_runs w id
    by_cases hle : upTo ≤ (w.store.get id).taken
    · refine ⟨[], w.store, hprogress.bind ?_, List.forall_mem_nil _⟩
      rw [if_pos hle]
      rfl
    · obtain ⟨next, hnote⟩ := note_runs w id { w.store.get id with taken := (w.store.get id).taken + 1 }
      obtain ⟨g, hwhole, hg⟩ := whole_runs (w := { w with store := next }) hrow hfit hbare (w.store.get id).taken
      obtain ⟨gs, s, hrest, hgs⟩ := ih (w := { w with store := next }) hbare
      refine ⟨g :: gs, s, hprogress.bind ?_, List.forall_mem_cons.2 ⟨hg, hgs⟩⟩
      rw [if_neg hle]
      refine hnote.bind ?_
      cases hrow with
      | string ps => exact hwhole.bind (hrest.bind rfl)
      | array items => exact hwhole.bind (hrest.bind rfl)

theorem passOn_item_runs (hp : w.inlets.lookup id = some p) (h : Takers p.followers w.channels) {g : Given}
    (hg : g.Fit) : ∃ s cs, Runs w (passOn id (.item g)) (.ok ()) { w with store := s, channels := cs } ∧
      Takers p.followers cs := by
  obtain ⟨_, s, cs, hrun, rfl, htakers, -⟩ := fills_spread_item hg (List.Subset.refl _) h w
  exact ⟨s, cs, (inletAt_runs hp).bind (hrun.bind rfl), htakers⟩

theorem passOn_stop_runs (hp : w.inlets.lookup id = some p) (h : Takers p.followers w.channels) :
    ∃ w', Runs w (passOn id .stop) (.ok ()) w' := by
  obtain ⟨all, s, cs, hrun, -⟩ := fills_spread_stop h.quiet w
  exact ⟨_, (inletAt_runs hp).bind (hrun.bind rfl)⟩

theorem passOnAll_runs (hp : w.inlets.lookup id = some p) (h : Takers p.followers w.channels) {gs : List Given}
    (hgs : ∀ g ∈ gs, g.Fit) :
    ∃ s cs, Runs w (gs.forM fun g => passOn id (.item g)) (.ok ()) { w with store := s, channels := cs } ∧
      Takers p.followers cs := by
  induction gs generalizing w with
  | nil => exact ⟨w.store, w.channels, rfl, h⟩
  | cons g gs ih =>
    obtain ⟨hg, hgs⟩ := List.forall_mem_cons.1 hgs
    obtain ⟨s, cs, hrun, htakers⟩ := passOn_item_runs hp h hg
    obtain ⟨s', cs', hrest, htakers'⟩ := ih (w := { w with store := s, channels := cs }) hp htakers hgs
    exact ⟨s', cs', hrun.bind hrest, htakers'⟩

theorem split_row_runs (h : w.Holds id v) (hfit : ∀ g ∈ v.pieces, g.Fit) (hended : (w.store.get id).ended = false)
    (count : Nat) : ∃ fs w', Runs w (split (.container id) count) (.ok fs) w' := by
  obtain ⟨e, r, hends⟩ : ∃ e r, (w.store.get id).ends.getD [v.size] ++ [v.size] = e :: r := by
    cases (w.store.get id).ends.getD [v.size] with
    | nil => exact ⟨_, _, rfl⟩
    | cons e r => exact ⟨_, _, rfl⟩
  obtain ⟨s₁, hnote⟩ := note_runs w id { w.store.get id with ended := true, ends := some r }
  obtain ⟨items, s₂, htake, hitems⟩ := takeRest_runs (w := { w with store := s₁ }) h.row hfit h.bare e (v.size + 1)
  obtain ⟨q, hinlet⟩ : ∃ q, Runs { w with store := s₂ } (inletAt id) (.ok q) { w with store := s₂ } := ⟨_, rfl⟩
  obtain ⟨fs, s₃, cs, hnew, hfs, new, hquiet, hopen, rfl⟩ :=
    fills_offspring w.channels count hitems q.attributes { w with store := s₂ }
  obtain ⟨w₁, hset, hlookup, hbare, hchannels⟩ := setInlet_runs
    { w with store := s₃, channels := w.channels ++ List.replicate count new } id
    { q with followers := fs, spreading := true }
  have htakers : Takers fs w₁.channels := by
    rw [hchannels, hfs]
    exact takers_new _ hquiet hopen count
  suffices hrest : ∃ w', Runs w₁ _ (.ok fs) w' by
    obtain ⟨w', hrest⟩ := hrest
    refine ⟨fs, w', (contents_runs h.container).bind ((progress_runs w id).bind ?_)⟩
    rw [hended]
    refine (get_runs w).bind ?_
    rw [h.held, hends]
    exact hnote.bind (htake.bind (hinlet.bind (hnew.bind (hset.bind hrest))))
  cases r with
  | nil => exact ⟨w₁, rfl⟩
  | cons e' r' =>
    -- Another end waits behind the split: the pieces in front of it are passed on at once.
    obtain ⟨s₄, hnote'⟩ := note_runs w₁ id { w₁.store.get id with ends := some r' }
    obtain ⟨later, s₅, htake', hlater⟩ :=
      takeRest_runs (w := { w₁ with store := s₄ }) h.row hfit (hbare.trans h.bare) e' (v.size + 1)
    obtain ⟨s₆, cs', hpass, htakers'⟩ := passOnAll_runs (w := { w₁ with store := s₅ }) hlookup htakers hlater
    obtain ⟨w', hstop⟩ := passOn_stop_runs (w := { w₁ with store := s₆, channels := cs' }) hlookup htakers'
    exact ⟨w', (progress_runs w₁ id).bind (hnote'.bind (htake'.bind (hpass.bind (hstop.bind rfl))))⟩

end Rows

end Work

namespace Workspace

open Work

/-- The channel can be split.  What waits in it can be made values, unless its end has been met; a container
is a string or an array then. -/
inductive Splittable (w : Workspace) : Node → Prop
  | plain {i : Nat} {c : Channel} (hi : w.channels[i]? = some c)
      (hfit : c.ended = false → ∀ g, .item g ∈ c.waiting → g.Fit) : w.Splittable (.plain i)
  | container {id : Nat} {v : Value} (hv : w.container? id = some v)
      (hfit : (w.store.get id).ended = false → w.Holds id v ∧ ∀ g ∈ v.pieces, g.Fit) :
      w.Splittable (.container id)

variable {w : Workspace} {n : Node} {count : Nat}

/-- **A split succeeds** if what waits can be made values. -/
theorem Splittable.runs (h : w.Splittable n) (count : Nat) : ∃ fs w', Runs w (split n count) (.ok fs) w' := by
  have hfinished : ∃ fs w', Runs w (do
      if count = 0 then return []
      return List.replicate count (← newChannel .finished)) (.ok fs) w' := by
    by_cases hcount : count = 0
    · rw [if_pos hcount]
      exact ⟨_, _, rfl⟩
    · rw [if_neg hcount]
      exact ⟨_, _, rfl⟩
  cases h with
  | @plain i c hi hfit =>
    cases hended : c.ended with
    | true =>
      obtain ⟨fs, w', hrun⟩ := hfinished
      refine ⟨fs, w', Runs.bind (acts_channelAt hi w) ?_⟩
      rw [hended]
      exact hrun
    | false =>
      obtain ⟨fs, s, cs, hrun, -⟩ := fills_split_plain hi hended (hfit hended) w
      exact ⟨fs, _, hrun⟩
  | @container id v hv hfit =>
    cases hended : (w.store.get id).ended with
    | true =>
      obtain ⟨fs, w', hrun⟩ := hfinished
      refine ⟨fs, w', (contents_runs hv).bind ((progress_runs w id).bind ?_)⟩
      rw [hended]
      exact hrun
    | false => exact split_row_runs (hfit hended).1 (hfit hended).2 hended count

theorem split_gains {w' : Workspace} {fs : List Nat} (hn : w.settings.Has n)
    (h : Runs w (split n count) (.ok fs) w') :
    w.settings.Gains (if w.hasEnded n then ({} : Attributes).completed else w.attributes n) count fs
      w'.settings := by
  cases n with
  | plain i => exact split_plain_gains hn h
  | container id => exact split_container_gains h

/-- **Splitting keeps the environment of a channel unless its end has been met.**  A split gives as many
channels as are asked for and leaves the attributes of the channel as they are.  From each new channel the same
attributes can be read as from the channel, exactly if this had not ended or has the attributes of one for which
none were set. -/
theorem split_attributes (hn : w.settings.Has n) (count : Nat) :
    (w.Splittable n → ∃ fs w', Runs w (split n count) (.ok fs) w') ∧
      ∀ fs w', Runs w (split n count) (.ok fs) w' →
        fs.length = count ∧ w'.attributes n = w.attributes n ∧
        (0 < count →
          ((∀ f ∈ fs, ∀ a, (getAttribute (.plain f) a).run.run w' = (getAttribute n a).run.run w') ↔
            w.hasEnded n = false ∨ w.attributes n = ({} : Attributes).completed)) := by
  refine ⟨fun h => h.runs count, fun fs w' hrun => ?_⟩
  obtain ⟨hlength, hnew, hold⟩ := split_gains hn hrun
  have hsame : w'.attributes n = w.attributes n := hold n hn
  refine ⟨hlength, hsame, fun hcount => ?_⟩
  obtain ⟨f, hf⟩ := List.exists_mem_of_length_pos (hlength ▸ hcount)
  simp only [getAttribute_eq_iff, hsame]
  cases hended : w.hasEnded n with
  | false =>
    rw [hended] at hnew
    exact iff_of_true hnew (.inl rfl)
  | true =>
    rw [hended] at hnew
    refine ⟨fun h => .inr ((h f hf).symm.trans (hnew f hf)), fun h g hg => ?_⟩
    rw [h.resolve_left Bool.true_eq_false.mp]
    exact hnew g hg

/-- The theorem for a channel with a variable in which a value and an end wait. -/
theorem split_attributes_waiting :
    let own : Attributes := { ({} : Attributes).completed with
      locals := some (.data (.dict [(.text "x", .list [.int 1])])) }
    let c : Channel := { waiting := [.item (.value .null), .stop], closed := true, attributes := own }
    let w : Workspace := { channels := [c] }
    w.settings.Has (.plain 0) ∧ w.Splittable (.plain 0) ∧
      ∃ fs w', Runs w (split (.plain 0) 2) (.ok fs) w' ∧ fs.length = 2 ∧
        ∀ f ∈ fs, ∀ a, (getAttribute (.plain f) a).run.run w' = (getAttribute (.plain 0) a).run.run w' := by
  intro own c w
  have hhas : w.settings.Has (.plain 0) := Nat.zero_lt_one
  have hsplit : w.Splittable (.plain 0) := by
    refine .plain rfl fun _ g hg => ?_
    obtain hg | hg := List.mem_cons.1 hg
    · cases hg
      exact Given.fit_value _
    · cases List.mem_singleton.1 hg
  obtain ⟨fs, w', hrun⟩ := (split_attributes hhas 2).1 hsplit
  obtain ⟨hlength, -, hiff⟩ := (split_attributes hhas 2).2 fs w' hrun
  exact ⟨hhas, hsplit, fs, w', hrun, hlength, (hiff Nat.two_pos).2 (.inl rfl)⟩

/-- The end of the channel has been met.  The channels that are split off have none of its variables. -/
theorem split_forgets_attributes :
    let own : Attributes := { ({} : Attributes).completed with
      locals := some (.data (.dict [(.text "x", .list [.int 1])])) }
    let w : Workspace := { channels := [{ attributes := own, closed := true, ended := true }] }
    let w' := ((split (.plain 0) 2).run.run w).2
    Runs w (split (.plain 0) 2) (.ok [1, 1]) w' ∧
      (getAttribute (.plain 0) .locals).run.run w' =
        (.ok (.data (.dict [(.text "x", .list [.int 1])])), w') ∧
      (getAttribute (.plain 1) .locals).run.run w' = (.ok (.data (.dict [])), w') :=
  ⟨rfl, rfl, rfl⟩

end Workspace

end FilterShell
