import FilterShell.Proofs.Channel.Delivery
import FilterShell.Workspace.Flow
import Mathlib.Data.List.Nodup

/-!
# Splitting a channel of a workspace

In a workspace each use of a channel is made to its end before the next one.  So whatever is done with a
channel that was split, and with those that were split off, is one order of the steps of the splitter
(`Splitting.Realizes.makeAll`), and nothing is lost in any order (`Splitting.split_delivers`).
-/

namespace FilterShell

variable {f : Follower} {j k : Nat} {rest : List Signal} {give : Signal → Nat → Work Unit}
  {s : Signal}

/-! ### Work on channels -/

/-- The work ends so and changes the channels, and nothing else. -/
def Work.Acts {α : Type} (x : Work α) (cs : List Channel) (r : Except Fault α) (cs' : List Channel) : Prop :=
  ∀ w : Workspace, x.run.run { w with channels := cs } = (r, { w with channels := cs' })

namespace Work

variable {α β : Type} {cs cs' cs'' : List Channel}

theorem acts_pure (a : α) : Acts (pure a : Work α) cs (.ok a) cs := fun _ => rfl

theorem Acts.run_eq {x : Work α} {w : Workspace} {r : Except Fault α} (h : x.Acts w.channels r cs') :
    x.run.run w = (r, { w with channels := cs' }) := h w

theorem Acts.bind {x : Work α} {f : α → Work β} {a : α} {r : Except Fault β} (hx : x.Acts cs (.ok a) cs')
    (hf : (f a).Acts cs' r cs'') : (x >>= f).Acts cs r cs'' := by
  intro w
  rw [ExceptT.run_bind, StateT.run_bind, hx w]
  exact hf w

theorem acts_channelAt {i : Nat} {c : Channel} (h : cs[i]? = some c) :
    (channelAt i).Acts cs (.ok c) cs := by
  intro w
  have hget : cs[i]?.getD {} = c := by rw [h]; rfl
  rw [← hget]
  rfl

theorem acts_setChannel (i : Nat) (c : Channel) : (setChannel i c).Acts cs (.ok ()) (cs.set i c) :=
  fun _ => rfl

theorem acts_newChannel (c : Channel) : (newChannel c).Acts cs (.ok cs.length) (cs ++ [c]) := fun _ => rfl

theorem acts_reading (v : Value) : (reading (Given.value v).toValue).Acts cs (.ok v) cs := by
  intro w
  rw [Given.toValue]
  rfl

theorem acts_collect (v : Value) : (collect (.value v)).Acts cs (.ok (.value v)) cs := by
  intro w
  rw [collect]
  · rfl
  all_goals nofun

/-! ### Giving -/

/-- A channel that is given a signal. -/
def given (s : Signal) (c : Channel) : Channel :=
  match s with
  | .item _ => c.put s
  | .stop   => c.close

/-- A way of giving a signal to channels that do not pass it on. -/
def Feeds (give : Signal → Nat → Work Unit) : Prop :=
  ∀ {s cs j c}, cs[j]? = some c → c.spreading = false → (give s j).Acts cs (.ok ()) (cs.set j (given s c))

theorem feeds_feedFor (fuel : Nat) : Feeds (feedFor (fuel + 1)) := by
  intro s cs j c hj hquiet
  refine (acts_channelAt hj).bind ?_
  cases s with
  | item g =>
    rw [hquiet]
    exact acts_setChannel j _
  | stop =>
    rw [hquiet]
    exact acts_setChannel j _

theorem acts_feed {i : Nat} {r : Except Fault Unit}
    (h : (feedFor (cs.length + 1) s i).Acts cs r cs') : (feed s i).Acts cs r cs' := fun w => h w

theorem feeds_feed : Feeds feed := fun hj hquiet => acts_feed (feeds_feedFor _ hj hquiet)

/-- The items of a workspace's channels are values, which are passed on as they are. -/
theorem spread_cons (hgive : Feeds give)
    {js : List Nat} {c : Channel} {r : Except Fault Bool} (hs : ∀ g, s = .item g → ∃ v, g = .value v)
    (hj : cs[j]? = some c) (hquiet : c.spreading = false) (hopen : ∀ g, s = .item g → c.closed = false)
    (h : (spread give s js).Acts (cs.set j (given s c)) r cs') :
    (spread give s (j :: js)).Acts cs r cs' := by
  cases s with
  | stop => exact (hgive hj hquiet).bind h
  | item g =>
    obtain ⟨v, rfl⟩ := hs g rfl
    refine (acts_channelAt hj).bind ?_
    rw [hopen _ rfl]
    exact (acts_reading v).bind ((hgive hj hquiet).bind h)

/-! ### New channels -/

theorem acts_mapM_values (vs : List Value) :
    ((vs.map Given.value).mapM fun g => reading g.toValue).Acts cs (.ok vs) cs := by
  induction vs with
  | nil => exact acts_pure _
  | cons v vs ih =>
    rw [List.map_cons, List.mapM_cons]
    exact (acts_reading v).bind (ih.bind (acts_pure _))

theorem acts_newChannels (c : Channel) (n : Nat) :
    ((List.replicate n ()).mapM fun _ => newChannel c).Acts cs (.ok (List.range' cs.length n))
      (cs ++ List.replicate n c) := by
  induction n generalizing cs with
  | zero =>
    rw [List.replicate_zero, List.replicate_zero, List.append_nil]
    exact acts_pure _
  | succ n ih =>
    rw [List.replicate_succ, List.mapM_cons, List.range'_succ, List.replicate_succ, List.append_cons]
    have hrest := @ih (cs ++ [c])
    rw [List.length_append] at hrest
    exact (acts_newChannel c).bind (hrest.bind (acts_pure _))

theorem acts_offspring (vs : List Value) (a : Attributes) (n : Nat) :
    (offspring n (vs.map .value) a).Acts cs (.ok (List.range' cs.length n))
      (cs ++ List.replicate n { waiting := vs.map fun v => .item (.value v), attributes := a }) :=
  (acts_mapM_values vs).bind (acts_newChannels _ n)

end Work

namespace Splitting

open Signal Work

/-! ### Runs of steps -/

variable {n : Nat} {c : Channel} {fs : List Follower} {ps gs : List Given}

theorem steps_drain (taken : List Given) (h : c.waiting = gs.map .item ++ .stop :: rest) :
    Steps n ⟨c, .draining taken, fs, ps⟩ ⟨{ c with waiting := rest }, .creating (taken ++ gs), fs, ps⟩ := by
  induction gs generalizing c taken with
  | nil =>
    rw [List.append_nil]
    exact .single ⟨_, .drained h⟩
  | cons g gs ih =>
    have hlater := @ih { c with waiting := gs.map .item ++ .stop :: rest } (taken ++ [g]) rfl
    rw [List.append_assoc] at hlater
    exact .head ⟨_, .take h⟩ hlater

theorem steps_create (fs : List Follower) (k : Nat) (h : fs.length + k = n) :
    Steps n ⟨c, .creating gs, fs, ps⟩
      ⟨c, .fetching, fs ++ List.replicate k ⟨{ waiting := gs.map .item, attributes := c.attributes }, []⟩,
        ps⟩ := by
  induction k generalizing fs with
  | zero =>
    rw [List.replicate_zero, List.append_nil]
    exact .single ⟨_, .created h⟩
  | succ k ih =>
    rw [List.replicate_succ, List.append_cons]
    refine .head ⟨_, .create (by omega)⟩ (ih _ ?_)
    rw [List.length_append, List.length_singleton]
    omega

/-- The steps of the splitter up to where it waits for more. -/
theorem steps_split (h : c.waiting ++ [.stop] = gs.map .item ++ .stop :: rest) :
    Steps n (start c) ⟨{ c with waiting := rest, ended := true }, .fetching,
      List.replicate n ⟨{ waiting := gs.map .item, attributes := c.attributes }, []⟩, []⟩ := by
  have hdrain : Steps n ⟨{ c.put .stop with ended := true }, .draining [], [], []⟩
      ⟨{ c with waiting := rest, ended := true }, .creating gs, [], []⟩ := steps_drain [] h
  exact .head ⟨_, .mark⟩ (hdrain.trans (steps_create [] n (Nat.zero_add n)))

theorem detach_eq (h : c.waiting ++ [.stop] = gs.map .item ++ .stop :: rest) :
    c.detach = (gs, { c with waiting := rest, ended := true }) := by
  have htoStop : Channel.toStop (gs.map .item ++ .stop :: rest) = (gs, rest) := by
    clear h
    induction gs with
    | nil => rfl
    | cons g gs ih =>
      rw [List.map_cons, List.cons_append, Channel.toStop, ih]
  rw [Channel.detach, h, htoStop]

/-! ### Channels of a workspace -/

/-- The channels of a workspace show a channel that was split, at `i`, and its followers, at `js`. -/
structure Shows (i : Nat) (js : List Nat) (spreading : Bool) (cs : List Channel) (c : Channel)
    (fs : List Follower) : Prop where
  source : cs[i]? = some { c with followers := js, spreading }
  nodup : js.Nodup
  apart : i ∉ js
  length : js.length = fs.length
  follower : ∀ (k j : Nat) (f : Follower), js[k]? = some j → fs[k]? = some f →
    cs[j]? = some f.channel ∧ f.channel.spreading = false

section Shows

variable {i : Nat} {js : List Nat} {spreading : Bool} {cs : List Channel}

theorem Shows.lt (h : Shows i js spreading cs c fs) : i < cs.length :=
  (List.getElem?_eq_some_iff.1 h.source).1

theorem Shows.setFollower (h : Shows i js spreading cs c fs)
    (hj : js[k]? = some j) (hf : fs[k]? = some f) (f' : Follower) (hquiet : f'.channel.spreading = false) :
    Shows i js spreading (cs.set j f'.channel) c (fs.set k f') where
  source := by
    have hne : j ≠ i := by
      rintro rfl
      exact h.apart (List.mem_of_getElem? hj)
    rw [List.getElem?_set_ne hne]
    exact h.source
  nodup := h.nodup
  apart := h.apart
  length := by rw [List.length_set]; exact h.length
  follower := by
    intro k' j' g hj' hg
    by_cases hk : k = k'
    · subst hk
      obtain rfl : j' = j := Option.some.inj (hj'.symm.trans hj)
      have hlt := (List.getElem?_eq_some_iff.1 (h.follower k j' f hj hf).1).1
      rw [List.getElem?_set_self (List.getElem?_eq_some_iff.1 hf).1] at hg
      cases hg
      exact ⟨List.getElem?_set_self hlt, hquiet⟩
    · rw [List.getElem?_set_ne hk] at hg
      have hne : j ≠ j' := by
        rintro rfl
        obtain ⟨hlt, -⟩ := List.getElem?_eq_some_iff.1 hj
        exact hk ((List.getElem?_inj hlt h.nodup).1 (hj.trans hj'.symm))
      rw [List.getElem?_set_ne hne]
      exact h.follower k' j' g hj' hg

theorem Shows.setSource {spreading' : Bool} (h : Shows i js spreading cs c fs) (c' : Channel) :
    Shows i js spreading' (cs.set i { c' with followers := js, spreading := spreading' }) c' fs where
  source := List.getElem?_set_self h.lt
  nodup := h.nodup
  apart := h.apart
  length := h.length
  follower k j f hj hf := by
    have hne : i ≠ j := by
      rintro rfl
      exact h.apart (List.mem_of_getElem? hj)
    rw [List.getElem?_set_ne hne]
    exact h.follower k j f hj hf

/-! ### Passing on -/

theorem step_pass (hf : fs[k]? = some f) (hopen : ∀ g, s = .item g → f.channel.closed = false) :
    Step n .splitter ⟨c, .passing s k, fs, ps⟩
      ⟨c, .passing s (k + 1), fs.set k { f with channel := given s f.channel }, ps⟩ := by
  cases s with
  | item g => exact .passItem hf (hopen g rfl)
  | stop => exact .passStop hf

theorem given_spreading (s : Signal) (c : Channel) : (given s c).spreading = c.spreading := by
  cases s <;> rfl

theorem delivered_set {f' : Follower} (hf : fs[k]? = some f) (heq : f'.delivered = f.delivered) :
    (fs.set k f').map (·.delivered) = fs.map (·.delivered) := by
  induction fs generalizing k with
  | nil => rfl
  | cons g fs ih => cases k with
    | zero =>
      cases hf
      exact congrArg (· :: fs.map (·.delivered)) heq
    | succ k => exact congrArg (g.delivered :: ·) (ih hf)

/-- To give a signal to the followers in turn is to pass it on to each. -/
theorem Shows.passes (hgive : Feeds give)
    {rest : List Nat} (hs : ∀ g, s = .item g → ∃ v, g = .value v) (h : Shows i js spreading cs c fs)
    (hrest : js.drop k = rest) (hk : k ≤ js.length)
    (hopen : ∀ g, s = .item g → ∀ f ∈ fs, f.channel.closed = false) :
    ∃ cs' fs', (spread give s rest).Acts cs (.ok true) cs' ∧
      Steps n ⟨c, .passing s k, fs, ps⟩ ⟨c, .passing s fs'.length, fs', ps⟩ ∧
      Shows i js spreading cs' c fs' ∧ fs'.map (·.delivered) = fs.map (·.delivered) := by
  induction rest generalizing cs fs k with
  | nil =>
    have hlength : k = fs.length := by
      have := List.drop_eq_nil_iff.1 hrest
      have := h.length
      omega
    exact ⟨cs, fs, acts_pure true, hlength ▸ .refl, h, rfl⟩
  | cons j rest ih =>
    have hj : js[k]? = some j := by
      have hhead := congrArg List.head? hrest
      rwa [List.head?_drop] at hhead
    have hlt : k < js.length := (List.getElem?_eq_some_iff.1 hj).1
    obtain ⟨f, hf⟩ : ∃ f, fs[k]? = some f := ⟨_, List.getElem?_eq_getElem (h.length ▸ hlt)⟩
    obtain ⟨hchannel, hquiet⟩ := h.follower k j f hj hf
    have hmem : f ∈ fs := List.mem_of_getElem? hf
    have hshows : Shows i js spreading (cs.set j (given s f.channel)) c
        (fs.set k { f with channel := given s f.channel }) :=
      h.setFollower hj hf { f with channel := given s f.channel } ((given_spreading s f.channel).trans hquiet)
    have hopen' : ∀ g, s = .item g → ∀ f' ∈ fs.set k { f with channel := given s f.channel },
        f'.channel.closed = false := by
      rintro g rfl
      exact forall_set (hopen g rfl) (hopen g rfl f hmem)
    obtain ⟨cs', fs', hacts, hsteps, hshows', hdelivered⟩ :=
      ih hshows (by rw [← List.tail_drop, hrest]; rfl) hlt hopen'
    refine ⟨cs', fs', ?_, ?_, hshows', hdelivered.trans (delivered_set hf rfl)⟩
    · exact spread_cons hgive hs hchannel hquiet (fun g hg => hopen g hg f hmem) hacts
    · exact .head ⟨_, step_pass hf fun g hg => hopen g hg f hmem⟩ hsteps

theorem isValue_item {v : Value} (g : Given) (h : Signal.item (.value v) = .item g) : ∃ v, g = .value v :=
  ⟨v, (Signal.item.inj h).symm⟩

/-- A value that comes when the splitter waits is passed on to all followers. -/
theorem Shows.passes_item (hgive : Feeds give) (v : Value)
    (h : Shows i js spreading cs c fs) (hwaiting : c.waiting = []) (hclosed : c.closed = false)
    (hopen : ∀ f ∈ fs, f.channel.closed = false) :
    ∃ cs' fs', (spread give (.item (.value v)) js).Acts cs (.ok true) cs' ∧
      Steps n ⟨c, .fetching, fs, ps⟩ ⟨c, .fetching, fs', ps ++ [.value v]⟩ ∧
      Shows i js spreading cs' c fs' ∧ fs'.map (·.delivered) = fs.map (·.delivered) := by
  obtain ⟨cs', fs', hacts, hsteps, hshows, hdelivered⟩ :=
    h.passes hgive isValue_item List.drop_zero (Nat.zero_le _) fun _ _ => hopen
  have hqueue : (c.put (.item (.value v))).waiting = [.item (.value v)] := by
    rw [Channel.put, hwaiting]
    rfl
  have hsource : ({ c.put (.item (.value v)) with waiting := [] } : Channel) = c := by
    rw [← hwaiting]
    rfl
  have hfetch : Step n .splitter ⟨c.put (.item (.value v)), .fetching, fs, ps ++ [.value v]⟩ _ :=
    .fetch hqueue
  rw [hsource] at hfetch
  exact ⟨cs', fs', hacts, .head ⟨_, .push v hclosed⟩ (.head ⟨_, hfetch⟩ (hsteps.tail ⟨_, .again⟩)), hshows,
    hdelivered⟩

/-- An end that waits is passed on to all followers. -/
theorem Shows.passes_stop (hgive : Feeds give) {r : List Signal}
    (h : Shows i js spreading cs { c with waiting := r } fs) (hwaiting : c.waiting = .stop :: r) :
    ∃ cs' fs', (spread give .stop js).Acts cs (.ok true) cs' ∧
      Steps n ⟨c, .fetching, fs, ps⟩ ⟨{ c with waiting := r }, .done, fs', ps⟩ ∧
      Shows i js spreading cs' { c with waiting := r } fs' ∧
      fs'.map (·.delivered) = fs.map (·.delivered) := by
  obtain ⟨cs', fs', hacts, hsteps, hshows, hdelivered⟩ :=
    h.passes (s := .stop) hgive (by rintro _ ⟨⟩) List.drop_zero (Nat.zero_le _) (by rintro _ ⟨⟩)
  exact ⟨cs', fs', hacts, .head ⟨_, .fetch hwaiting⟩ (hsteps.tail ⟨_, .finish⟩), hshows, hdelivered⟩

/-! ### Splitting -/

/-- The splitter waits for more, or it is done. -/
def Idle (i : Nat) (js : List Nat) (cs : List Channel) (σ : State) : Prop :=
  σ.phase = .fetching ∧ σ.source.waiting = [] ∧ Shows i js true cs σ.source σ.followers ∨
    σ.phase = .done ∧ Shows i js false cs σ.source σ.followers

/-- An end that waits behind a split is passed on at once. -/
theorem Shows.spreadWaiting {r : List Signal} (h : Shows i js false cs c fs)
    (hwaiting : c.waiting = .stop :: r) (k : Nat) :
    ∃ cs' fs', (spreadWaiting i (k + 1)).Acts cs (.ok ()) cs' ∧
      Steps n ⟨c, .fetching, fs, ps⟩ ⟨{ c with waiting := r }, .done, fs', ps⟩ ∧
      Shows i js false cs' { c with waiting := r } fs' ∧
      fs'.map (·.delivered) = fs.map (·.delivered) := by
  have hset : Shows i js false (cs.set i { c with waiting := r, followers := js, spreading := false })
      { c with waiting := r } fs := h.setSource { c with waiting := r }
  obtain ⟨cs', fs', hacts, hrest⟩ := hset.passes_stop feeds_feed hwaiting
  refine ⟨cs', fs', (acts_channelAt h.source).bind ?_, hrest⟩
  rw [hwaiting]
  exact (acts_setChannel i _).bind (hacts.bind (acts_pure ()))

/-- The channels after a split, when nothing has been passed on yet: the new ones stand behind all
others. -/
def opened (n i : Nat) (cs : List Channel) (rest new : Channel) : List Channel :=
  (cs.set i rest ++ List.replicate n new).set i
    { rest with followers := List.range' cs.length n, spreading := rest.waiting.isEmpty }

/-- A channel that was just split, and its followers. -/
theorem shows_opened (rest : Channel) {new : Channel} (hi : i < cs.length) (hnew : new.spreading = false) :
    Shows i (List.range' cs.length n) rest.waiting.isEmpty (opened n i cs rest new) rest
      (List.replicate n ⟨new, []⟩) where
  source := List.getElem?_set_self (by rw [List.length_append, List.length_set]; omega)
  nodup := List.nodup_range'
  apart hmem := by
    have := (List.mem_range'_1.1 hmem).1
    omega
  length := by rw [List.length_range', List.length_replicate]
  follower k j f hj hf := by
    obtain ⟨hk, rfl⟩ := List.getElem?_eq_some_iff.1 hj
    rw [List.length_range'] at hk
    rw [List.getElem?_replicate_of_lt hk] at hf
    cases hf
    refine ⟨?_, hnew⟩
    have hlength : (cs.set i rest).length = cs.length := List.length_set
    rw [List.getElem_range', Nat.one_mul, opened, List.getElem?_set_ne (by omega),
      List.getElem?_append_right (by omega), hlength, Nat.add_sub_cancel_left,
      List.getElem?_replicate_of_lt hk]

/-- A split takes the items, makes the new channels and passes on what is left. -/
theorem split_opens {vs : List Value} {cs' : List Channel} (hi : cs[i]? = some c)
    (hopen : c.ended = false) (hqueue : c.waiting ++ [.stop] = (vs.map Given.value).map .item ++ .stop :: rest)
    (h : (Work.spreadWaiting i rest.length).Acts
      (opened n i cs { c with waiting := rest, ended := true }
        { waiting := (vs.map Given.value).map .item, attributes := c.attributes }) (.ok ()) cs') :
    (Work.split (.plain i) n).Acts cs (.ok (List.range' cs.length n)) cs' := by
  refine (acts_channelAt hi).bind ?_
  rw [hopen, detach_eq hqueue]
  rw [opened, List.map_map] at h
  refine (acts_setChannel i _).bind ((acts_offspring vs c.attributes n).bind ((acts_setChannel i _).bind ?_))
  rw [List.length_set]
  exact h.bind (acts_pure _)

/-- **To split a channel of a workspace** is to make the steps of the splitter until it waits for more or
is done. -/
theorem split_acts {vs : List Value} {m : Nat} (hi : cs[i]? = some c) (hopen : c.ended = false)
    (hlined : c.Lined (vs.map .value) m) :
    ∃ cs' σ, (Work.split (.plain i) n).Acts cs (.ok (List.range' cs.length n)) cs' ∧
      Steps n (start c) σ ∧ Idle i (List.range' cs.length n) cs' σ ∧ σ.pushed = [] ∧
      σ.followers.map (·.delivered) = List.replicate n [] := by
  have hqueue : c.waiting ++ [.stop] = (vs.map Given.value).map .item ++ .stop :: lined [] m := by
    rw [hlined.1, lined_mark]
  have hsteps : Steps n (start c) _ := steps_split hqueue
  have hshows : Shows i (List.range' cs.length n) (lined [] m).isEmpty
      (opened n i cs { c with waiting := lined [] m, ended := true }
        { waiting := (vs.map Given.value).map .item, attributes := c.attributes })
      { c with waiting := lined [] m, ended := true } (List.replicate n ⟨_, []⟩) :=
    shows_opened { c with waiting := lined [] m, ended := true } (List.getElem?_eq_some_iff.1 hi).1 rfl
  cases m with
  | zero =>
    exact ⟨_, _, split_opens hi hopen hqueue (acts_pure ()), hsteps, .inl ⟨rfl, rfl, hshows⟩, rfl,
      List.map_replicate⟩
  | succ m =>
    obtain ⟨cs', fs', hacts, hlater, hshows', hdelivered⟩ := hshows.spreadWaiting rfl _
    exact ⟨cs', _, split_opens hi hopen hqueue hacts, hsteps.trans hlater, .inr ⟨rfl, hshows'⟩, rfl,
      hdelivered.trans List.map_replicate⟩

/-! ### Pushing, ending and popping -/

theorem Shows.feeds (h : Shows i js spreading cs c fs) : Feeds (feedFor cs.length) := by
  obtain ⟨m, hm⟩ := Nat.exists_eq_succ_of_ne_zero (Nat.ne_of_gt (Nat.zero_lt_of_lt h.lt))
  rw [hm]
  exact feeds_feedFor m

theorem Shows.push (h : Shows i js true cs c fs) (hwaiting : c.waiting = []) (hclosed : c.closed = false)
    (hopen : ∀ f ∈ fs, f.channel.closed = false) (v : Value) :
    ∃ cs' fs', (Work.push (.plain i) (.value v)).Acts cs (.ok ()) cs' ∧
      Steps n ⟨c, .fetching, fs, ps⟩ ⟨c, .fetching, fs', ps ++ [.value v]⟩ ∧
      Shows i js true cs' c fs' ∧ fs'.map (·.delivered) = fs.map (·.delivered) := by
  obtain ⟨cs', fs', hacts, hrest⟩ := h.passes_item h.feeds v hwaiting hclosed hopen
  refine ⟨cs', fs', (acts_collect v).bind ((acts_reading v).bind ((acts_channelAt h.source).bind ?_)), hrest⟩
  rw [hclosed]
  exact acts_feed ((acts_channelAt h.source).bind (hacts.bind (acts_pure ())))

theorem Shows.push_closed (h : Shows i js spreading cs c fs) (hclosed : c.closed = true) (v : Value) :
    (Work.push (.plain i) (.value v)).Acts cs (.error .closed) cs := by
  refine (acts_collect v).bind ((acts_reading v).bind ((acts_channelAt h.source).bind ?_))
  rw [hclosed]
  exact fun _ => rfl

/-- The end is passed on to all followers at once. -/
theorem Shows.terminate (h : Shows i js true cs c fs) (hwaiting : c.waiting = []) :
    ∃ cs' fs', (Work.terminate (.plain i)).Acts cs (.ok ()) cs' ∧
      Steps n ⟨c, .fetching, fs, ps⟩ ⟨{ c with closed := true }, .done, fs', ps⟩ ∧
      Shows i js false cs' { c with closed := true } fs' ∧
      fs'.map (·.delivered) = fs.map (·.delivered) := by
  have hqueue : c.close.waiting = [.stop] := by
    rw [Channel.close, Channel.put, hwaiting]
    rfl
  have hsource : ({ c.close with waiting := [] } : Channel) = { c with closed := true } := by
    rw [← hwaiting]
    rfl
  have hset : Shows i js false (cs.set i { c with closed := true, followers := js, spreading := false })
      { c with closed := true } fs := h.setSource { c with closed := true }
  rw [← hsource] at hset
  obtain ⟨cs', fs', hacts, hsteps, hshows, hdelivered⟩ := hset.passes_stop h.feeds hqueue
  rw [hsource] at hsteps hshows
  refine ⟨cs', fs', acts_feed ((acts_channelAt h.source).bind ?_), .head ⟨_, .terminate⟩ hsteps, hshows,
    hdelivered⟩
  exact (acts_setChannel i _).bind (hacts.bind (acts_pure ()))

theorem Shows.terminate_done (h : Shows i js false cs c fs) :
    ∃ cs', (Work.terminate (.plain i)).Acts cs (.ok ()) cs' ∧ Shows i js false cs' c.close fs :=
  ⟨_, acts_feed ((acts_channelAt h.source).bind (acts_setChannel i _)), h.setSource c.close⟩

theorem acts_pop {r : Except Fault Given} {c' : Channel} (hj : cs[j]? = some c)
    (hpop : c.pop = (r, c')) : (Work.pop (.plain j)).Acts cs r (cs.set j c') := by
  refine (acts_channelAt hj).bind ?_
  rw [hpop]
  refine (acts_setChannel j c').bind ?_
  cases r <;> exact fun _ => rfl

/-- A pop that meets nothing changes nothing, any other is a step. -/
theorem steps_pop {φ : Phase} (hφ : φ.handedOut) (hf : fs[k]? = some f) :
    Steps n ⟨c, φ, fs, ps⟩ ⟨c, φ, fs.set k f.pop, ps⟩ := by
  have hstays : f.pop = f → Steps n ⟨c, φ, fs, ps⟩ ⟨c, φ, fs.set k f.pop, ps⟩ := by
    intro heq
    obtain ⟨hk, rfl⟩ := List.getElem?_eq_some_iff.1 hf
    rw [heq, List.set_getElem_self hk]
    exact .refl
  cases hended : f.channel.ended with
  | true => exact hstays (by rw [Follower.pop, Channel.pop_ended hended])
  | false =>
    by_cases hwaits : f.channel.waiting = []
    · exact hstays (by rw [Follower.pop, Channel.pop_nil hended hwaits])
    · exact .single ⟨_, .pop hφ hf hended hwaits⟩

end Shows

/-! ### Uses -/

/-- A use of a channel that was split or of one of the channels that were split off. -/
inductive Use where
  | push (v : Value)
  | terminate
  | pop (k : Nat)

/-- What uses come to: the workspace, what was pushed and what was popped from which of the new channels. -/
structure Course where
  workspace : Workspace
  pushed    : List Given := []
  popped    : List (Nat × Given) := []

/-- What was popped from one of the new channels. -/
def Course.got (κ : Course) (k : Nat) : List Given :=
  κ.popped.filterMap fun p => if p.1 = k then some p.2 else none

/-- Makes a use of the channel at `i` or of one at `js`; what fails is passed over. -/
def Use.make (i : Nat) (js : List Nat) (κ : Course) : Use → Course
  | .push v    => match (Work.push (.plain i) (.value v)).run.run κ.workspace with
    | (.ok _, w)    => { κ with workspace := w, pushed := κ.pushed ++ [.value v] }
    | (.error _, w) => { κ with workspace := w }
  | .terminate => { κ with workspace := ((Work.terminate (.plain i)).run.run κ.workspace).2 }
  | .pop k     => match js[k]? with
    | none   => κ
    | some j => match (Work.pop (.plain j)).run.run κ.workspace with
      | (.ok g, w)    => { κ with workspace := w, popped := κ.popped ++ [(k, g)] }
      | (.error _, w) => { κ with workspace := w }

/-- The uses have come to the state of a run. -/
structure Realizes (i : Nat) (js : List Nat) (κ : Course) (σ : State) : Prop where
  idle : Idle i js κ.workspace.channels σ
  pushed : σ.pushed = κ.pushed
  popped : Each σ.followers fun k f => f.delivered = κ.got k

section Uses

variable {i : Nat} {js : List Nat} {κ : Course} {σ : State} {base : List Given}

theorem popped_congr {fs fs' : List Follower} (heq : fs'.map (·.delivered) = fs.map (·.delivered))
    (h : Each fs fun k f => f.delivered = κ.got k) : Each fs' fun k f => f.delivered = κ.got k := by
  intro k f hf
  have hget : (fs'.map (·.delivered))[k]? = some f.delivered := by rw [List.getElem?_map, hf]; rfl
  rw [heq, List.getElem?_map] at hget
  obtain ⟨f', hf', hdelivered⟩ := Option.map_eq_some_iff.1 hget
  exact hdelivered ▸ h k f' hf'

theorem Realizes.push (h : Realizes i js κ σ) (hinv : Inv n base σ) (v : Value) :
    ∃ σ', Steps n σ σ' ∧ Realizes i js (Use.make i js κ (.push v)) σ' := by
  obtain ⟨hidle, hpushed, hpopped⟩ := h
  obtain ⟨c, φ, fs, ps⟩ := σ
  obtain ⟨rfl, hwaiting, hshows⟩ | ⟨rfl, hshows⟩ := hidle
  · obtain ⟨-, gs, rs, m, ⟨hqueue, hclosed⟩, -, hall⟩ := hinv
    obtain ⟨-, rfl⟩ := lined_eq_nil (hqueue.symm.trans hwaiting)
    have hopen : c.closed = false := Bool.eq_false_iff.2 fun hc => Nat.lt_irrefl 0 (hclosed.1 hc)
    obtain ⟨cs', fs', hacts, hsteps, hshows', hdelivered⟩ :=
      hshows.push hwaiting hopen (fun f hf => (hall f hf).closed_eq) v
    refine ⟨_, hsteps, ?_⟩
    rw [Use.make, hacts.run_eq]
    exact ⟨.inl ⟨rfl, hwaiting, hshows'⟩, congrArg (· ++ [.value v]) hpushed, popped_congr hdelivered hpopped⟩
  · refine ⟨_, .refl, ?_⟩
    rw [Use.make, (hshows.push_closed hinv.2.1 v).run_eq]
    exact ⟨.inr ⟨rfl, hshows⟩, hpushed, hpopped⟩

theorem Realizes.terminate (h : Realizes i js κ σ) :
    ∃ σ', Steps n σ σ' ∧ Realizes i js (Use.make i js κ .terminate) σ' := by
  obtain ⟨hidle, hpushed, hpopped⟩ := h
  obtain ⟨c, φ, fs, ps⟩ := σ
  obtain ⟨rfl, hwaiting, hshows⟩ | ⟨rfl, hshows⟩ := hidle
  · obtain ⟨cs', fs', hacts, hsteps, hshows', hdelivered⟩ := hshows.terminate hwaiting
    refine ⟨_, hsteps, ?_⟩
    rw [Use.make, hacts.run_eq]
    exact ⟨.inr ⟨rfl, hshows'⟩, hpushed, popped_congr hdelivered hpopped⟩
  · obtain ⟨cs', hacts, hshows'⟩ := hshows.terminate_done
    refine ⟨_, .single ⟨_, .terminate⟩, ?_⟩
    rw [Use.make, hacts.run_eq]
    exact ⟨.inr ⟨rfl, hshows'⟩, hpushed, hpopped⟩

theorem Course.got_concat {w : Workspace} {ps : List Given} (ds : List (Nat × Given)) (j k : Nat)
    (g : Given) :
    Course.got ⟨w, ps, ds ++ [(j, g)]⟩ k = Course.got ⟨w, ps, ds⟩ k ++ if j = k then [g] else [] := by
  rw [Course.got, List.filterMap_append]
  by_cases hjk : j = k
  · simp [hjk, Course.got]
  · simp [hjk, Course.got]

/-- A consumer pops what the workspace gives. -/
theorem Follower.pop_eq {r : Except Fault Given} {c : Channel} (h : f.channel.pop = (r, c)) :
    f.pop.channel = c ∧ f.pop.delivered = f.delivered ++ r.toOption.toList := by
  rw [Follower.pop, h]
  cases r with
  | ok g => exact ⟨rfl, rfl⟩
  | error e => exact ⟨rfl, (List.append_nil _).symm⟩

theorem Realizes.pop (h : Realizes i js κ σ) (k : Nat) :
    ∃ σ', Steps n σ σ' ∧ Realizes i js (Use.make i js κ (.pop k)) σ' := by
  obtain ⟨hidle, hpushed, hpopped⟩ := h
  rw [Use.make]
  cases hj : js[k]? with
  | none => exact ⟨σ, .refl, hidle, hpushed, hpopped⟩
  | some j =>
    obtain ⟨c, φ, fs, ps⟩ := σ
    obtain ⟨b, hφ, hshows, hidle'⟩ : ∃ b, φ.handedOut ∧ Shows i js b κ.workspace.channels c fs ∧
        ∀ {cs' fs'}, Shows i js b cs' c fs' → Idle i js cs' ⟨c, φ, fs', ps⟩ := by
      obtain ⟨rfl, hwaiting, hshows⟩ | ⟨rfl, hshows⟩ := hidle
      · exact ⟨true, trivial, hshows, fun h => .inl ⟨rfl, hwaiting, h⟩⟩
      · exact ⟨false, trivial, hshows, fun h => .inr ⟨rfl, h⟩⟩
    obtain ⟨f, hf⟩ : ∃ f, fs[k]? = some f :=
      ⟨_, List.getElem?_eq_getElem (hshows.length ▸ (List.getElem?_eq_some_iff.1 hj).1)⟩
    obtain ⟨hchannel, hquiet⟩ := hshows.follower k j f hj hf
    rcases hpop : f.channel.pop with ⟨r, c'⟩
    obtain ⟨rfl, hdelivered⟩ := Follower.pop_eq hpop
    refine ⟨_, steps_pop hφ hf, ?_⟩
    have hinlet : f.pop.channel.toInlet = f.channel.toInlet := by
      rw [← Channel.pop_inlet (c := f.channel), hpop]
    have hnext := hidle' (hshows.setFollower hj hf f.pop (hinlet ▸ hquiet))
    have hacts := acts_pop hchannel hpop
    rw [hpopped k f hf] at hdelivered
    cases r with
    | ok g =>
      simp only [hacts.run_eq]
      refine ⟨hnext, hpushed, hpopped.set ?_ ?_⟩
      · rw [hdelivered, Course.got_concat, if_pos rfl]
        rfl
      · intro k' f' hne hf'
        rw [Course.got_concat, if_neg (Ne.symm hne), List.append_nil]
        exact hf'
    | error e =>
      simp only [hacts.run_eq]
      refine ⟨hnext, hpushed, hpopped.set ?_ fun _ _ _ hf' => hf'⟩
      rw [hdelivered]
      exact List.append_nil _

/-- **Each use is a run of steps.** -/
theorem Realizes.make (h : Realizes i js κ σ) (hinv : Inv n base σ) (u : Use) :
    ∃ σ', Steps n σ σ' ∧ Realizes i js (Use.make i js κ u) σ' := by
  cases u with
  | push v => exact h.push hinv v
  | terminate => exact h.terminate
  | pop k => exact h.pop k

theorem Realizes.makeAll (h : Realizes i js κ σ) (hinv : Inv n base σ) (us : List Use) :
    ∃ σ', Steps n σ σ' ∧ Realizes i js (us.foldl (Use.make i js) κ) σ' := by
  induction us generalizing κ σ with
  | nil => exact ⟨σ, .refl, h⟩
  | cons u us ih =>
    obtain ⟨σ₁, hsteps₁, h₁⟩ := h.make hinv u
    obtain ⟨σ₂, hsteps₂, h₂⟩ := ih h₁ (hinv.steps hsteps₁)
    exact ⟨σ₂, hsteps₁.trans hsteps₂, h₂⟩

end Uses

/-- **Splitting a channel neither loses nor duplicates nor reorders what goes through it.**  In whatever
order the producer, the splitter and the consumers take their steps, each new channel gives the items that
were not popped from the channel yet and then those pushed later.  To split the channel in a workspace, and
to use it and the new channels then, is to take the steps in one such order. -/
theorem split_delivers {c : Channel} (hc : c.Arises) (hopen : c.ended = false) (n : Nat) :
    (∀ σ, Steps n (start c) σ → Delivers n (items c.waiting) σ) ∧
      ∀ (w : Workspace) (i : Nat), w.channels[i]? = some c →
        ∃ js w', (Work.split (.plain i) n).run.run w = (.ok js, w') ∧ js.length = n ∧
          ∀ us : List Use, ∃ σ, Steps n (start c) σ ∧
            Realizes i js (us.foldl (Use.make i js) { workspace := w' }) σ := by
  have hstart := inv_start hc hopen n
  refine ⟨fun σ hsteps => (hstart.steps hsteps).delivers, fun w i hi => ?_⟩
  obtain ⟨vs, k, hlined⟩ := hc.lined hopen
  obtain ⟨cs', σ, hacts, hsteps, hidle, hpushed, hdelivered⟩ := split_acts hi hopen hlined
  refine ⟨_, _, hacts.run_eq, List.length_range', fun us => ?_⟩
  have hrealizes : Realizes i (List.range' w.channels.length n)
      { workspace := { w with channels := cs' } } σ := by
    refine ⟨hidle, hpushed, fun k f hf => ?_⟩
    have hmem := List.mem_map_of_mem (f := (·.delivered)) (List.mem_of_getElem? hf)
    rw [hdelivered] at hmem
    exact List.eq_of_mem_replicate hmem
  obtain ⟨σ', hlater, hrealizes'⟩ := hrealizes.makeAll (hstart.steps hsteps) us
  exact ⟨σ', hsteps.trans hlater, hrealizes'⟩

/-- Two ends wait behind the item. -/
theorem split_delivers_two :
    let c : Channel := { waiting := [.item (.value .null), .stop, .stop], closed := true }
    c.Arises ∧ c.ended = false ∧ ∀ σ, Steps 2 (start c) σ → Delivers 2 [.value .null] σ := by
  have harises := ((Channel.Arises.new {}).push .null rfl).close.close
  exact ⟨harises, rfl, (split_delivers harises rfl 2).1⟩

end Splitting

end FilterShell
