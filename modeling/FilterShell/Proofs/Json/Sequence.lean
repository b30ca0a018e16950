import FilterShell.Proofs.Json.Refused
import FilterShell.Proofs.Outcome
import FilterShell.Proofs.Value.Results
import Mathlib.Data.List.Forall2

/-!
# Documents one after the other

Tokens may hold several documents, and nothing stands between them.  A document ends with the token that
completes it, so tokens are cut in one way only, and what is read of each document is what is read of it alone
(`documents_in_turn`).

Documents that come later are read in another store.  By `Agrees`, the store matters for nothing but the
identities (`Accepted.run`).
-/

namespace FilterShell.Json

variable {d' : Document}

/-! ### The store does not matter -/

/-- Values that differ in identities only. -/
inductive Twin : Value → Value → Prop
  | refl (v : Value) : Twin v v
  | number (i j : Nat) (d : Decimal) : Twin (.number i d) (.number j d)
  | string (i j : Nat) (pieces : List Text) : Twin (.string i pieces) (.string j pieces)
  | array (i j : Nat) {items items' : List Value} (h : List.Forall₂ Twin items items') :
      Twin (.array i items) (.array j items')
  | object (i j : Nat) {pairs pairs' : List (Value × Value)}
      (hkeys : List.Forall₂ Twin (pairs.map (·.1)) (pairs'.map (·.1)))
      (hvalues : List.Forall₂ Twin (pairs.map (·.2)) (pairs'.map (·.2))) :
      Twin (.object i pairs) (.object j pairs')

/-- More tokens do not help. -/
def Error.IsFinal (e : Error) : Prop := e.isIncomplete = false

section Agrees

variable {α β : Type} {E : Error → Prop} {R : α → α → Prop} {Q : β → β → Prop}

/-- In any two stores both computations fail with the same error, of which `E` holds, or both succeed with
results that are related. -/
def Agrees (E : Error → Prop) (R : α → α → Prop) (x y : Parsing α) : Prop :=
  ∀ s s', (∃ a b, (x.run.run s).1 = .ok a ∧ (y.run.run s').1 = .ok b ∧ R a b) ∨
    ∃ e, E e ∧ (x.run.run s).1 = .error e ∧ (y.run.run s').1 = .error e

theorem agrees_pure {a b : α} (h : R a b) : Agrees E R (pure a) (pure b) :=
  fun _ _ => .inl ⟨a, b, rfl, rfl, h⟩

theorem agrees_throw {e : Error} (he : E e) : Agrees E R (throw e) (throw e) :=
  fun _ _ => .inr ⟨e, he, rfl, rfl⟩

/-- Computations that agree go on to agree. -/
theorem Agrees.bind {x y : Parsing α} {next next' : α → Parsing β} (h : Agrees E R x y)
    (hnext : ∀ a b, R a b → Agrees E Q (next a) (next' b)) : Agrees E Q (x >>= next) (y >>= next') := by
  intro s s'
  rcases hx : x.run.run s with ⟨rx, s₁⟩
  rcases hy : y.run.run s' with ⟨ry, s₁'⟩
  rcases h s s' with ⟨a, b, ha, hb, hR⟩ | ⟨e, hE, he, he'⟩
  · rw [hx] at ha
    rw [hy] at hb
    subst ha hb
    rw [bind_run hx, bind_run hy]
    exact hnext a b hR s₁ s₁'
  · rw [hx] at he
    rw [hy] at he'
    subst he he'
    rw [bind_error hx, bind_error hy]
    exact .inr ⟨e, hE, rfl, rfl⟩

/-- Nothing need be known of the error. -/
theorem Agrees.forget {x y : Parsing α} (h : Agrees E R x y) : Agrees (fun _ => True) R x y := by
  intro s s'
  rcases h s s' with h | ⟨e, -, he⟩
  · exact .inl h
  · exact .inr ⟨e, trivial, he⟩

/-- Whether a text can be a string depends on the text alone. -/
theorem agrees_ofText (w : Text) :
    Agrees Error.IsFinal Twin (lift (Value.ofText w)) (lift (Value.ofText w)) := by
  intro s s'
  by_cases hw : w.isWellFormed
  · have hrun : ∀ s : Store, ((lift (Value.ofText w)).run.run s).1 = .ok (.string s.next [w]) := by
      intro s
      rw [Value.ofText, if_neg (by simp [hw])]
      rfl
    exact .inl ⟨_, _, hrun s, hrun s', .string _ _ _⟩
  · have hrun : ∀ s : Store, ((lift (Value.ofText w)).run.run s).1 = .error (.fault .loneSurrogate) := by
      intro s
      rw [Value.ofText, if_pos (by simpa using hw)]
      rfl
    exact .inr ⟨.fault .loneSurrogate, rfl, hrun s, hrun s'⟩

theorem agrees_keyValue (key : Option Text) :
    Agrees Error.IsFinal Twin (lift (keyValue key)) (lift (keyValue key)) := by
  cases key with
  | none => exact agrees_pure (.refl _)
  | some w => exact agrees_ofText w

theorem agrees_ofDecimal (d : Decimal) :
    Agrees Error.IsFinal Twin (lift (Value.ofDecimal d)) (lift (Value.ofDecimal d)) := by
  unfold Value.ofDecimal
  split
  · exact fun s s' => .inl ⟨_, _, rfl, rfl, .number _ _ _⟩
  · exact agrees_pure (.refl _)

end Agrees

/-- Documents that differ in identities only. -/
inductive Document.Alike : Document → Document → Prop
  | text (w : Text) : Alike (.text w) (.text w)
  | value {v w : Value} (h : Twin v w) : Alike (.value v) (.value w)
  | textless : Alike .textless .textless

/-- Open containers of the same kind that hold the same; the entry that is being read has the same key. -/
inductive Frame.Alike : Frame → Frame → Prop
  | array {items items' : List Value} (h : List.Forall₂ Twin items items') :
      Alike (.array items) (.array items')
  | object {pairs pairs' : List (Value × Value)}
      (hkeys : List.Forall₂ Twin (pairs.map (·.1)) (pairs'.map (·.1)))
      (hvalues : List.Forall₂ Twin (pairs.map (·.2)) (pairs'.map (·.2))) (key : Option Text) :
      Alike (.object pairs key) (.object pairs' key)

/-- States that differ in identities only. -/
inductive State.Alike : State → State → Prop
  | reading (stage : Stage) {fs fs' : List Frame} (hfs : List.Forall₂ Frame.Alike fs fs') :
      Alike (.reading stage fs) (.reading stage fs')
  | done {d d' : Document} (h : d.Alike d') : Alike (.done d) (.done d')

section Alike

variable {d : Document}

theorem agrees_toValue (h : d.Alike d') :
    Agrees Error.IsFinal Twin (lift d.toValue) (lift d'.toValue) := by
  cases h with
  | text w => exact agrees_ofText w
  | value h => exact agrees_pure h
  | textless => exact agrees_pure (.refl _)

/-- Nothing is added to either of two documents, for the same reason. -/
theorem refuse_agrees (h : d.Alike d') (b : Beginning) :
    Agrees Error.IsFinal State.Alike (refuse d b) (refuse d' b) := by
  -- What is in the document does not matter.
  have hsame : refuse d' b = refuse d b := by
    cases h with
    | text | textless => rfl
    | value h =>
      cases h with
      | refl | number | array | object => rfl
      | string => rcases b with (_ | _ | _) | _ | _ | _ <;> rfl
  rw [hsame]
  unfold refuse
  extract_lets check
  have hcheck : Agrees Error.IsFinal (fun _ _ => True) check check := by
    dsimp only [check]
    split
    · exact (agrees_ofText _).bind fun _ _ _ => agrees_pure trivial
    · exact agrees_pure trivial
  split
  · exact hcheck.bind fun _ _ _ => agrees_throw rfl
  · exact hcheck.bind fun _ _ _ => agrees_throw rfl
  · exact hcheck.bind fun _ _ _ => agrees_throw rfl
  · exact agrees_throw rfl
  · exact agrees_throw rfl

variable {fs fs' : List Frame} (hfs : List.Forall₂ Frame.Alike fs fs')

include hfs

/-- Documents that are alike are put down alike. -/
theorem place_agrees (h : d.Alike d') :
    Agrees Error.IsFinal State.Alike (place d fs) (place d' fs') := by
  cases hfs with
  | nil => exact agrees_pure (.done h)
  | cons hf hfs =>
    cases hf with
    | array hitems =>
      exact (agrees_toValue h).bind fun v w hv =>
        agrees_pure (.reading .next (.cons (.array (.cons hv hitems)) hfs))
    | @object pairs pairs' hkeys hvalues key =>
      refine (agrees_keyValue key).bind fun k l hk => (agrees_toValue h).bind fun v w hv => ?_
      have hpairs : Frame.Alike (.object ((k, v) :: pairs) key) (.object ((l, w) :: pairs') key) := by
        refine .object ?_ ?_ key
        · exact .cons hk hkeys
        · exact .cons hv hvalues
      exact agrees_pure (.reading .next (.cons hpairs hfs))

theorem checkKey_agrees : Agrees Error.IsFinal (fun _ _ => True) (checkKey fs) (checkKey fs') := by
  cases hfs with
  | nil => exact agrees_pure trivial
  | cons hf hfs =>
    cases hf with
    | array => exact agrees_pure trivial
    | object _ _ key => exact (agrees_keyValue key).bind fun _ _ _ => agrees_pure trivial

theorem begin_agrees (b : Beginning) :
    Agrees Error.IsFinal State.Alike (begin fs b) (begin fs' b) := by
  cases b with
  | whole d =>
    refine place_agrees hfs ?_
    cases d with
    | text w => exact .text w
    | value v => exact .value (.refl v)
    | textless => exact .textless
  | number d => exact (agrees_ofDecimal d).bind fun v w h => place_agrees hfs (.value h)
  | array =>
    exact (checkKey_agrees hfs).bind fun _ _ _ =>
      agrees_pure (.reading .firstItem (.cons (.array .nil) hfs))
  | object =>
    exact (checkKey_agrees hfs).bind fun _ _ _ =>
      agrees_pure (.reading .firstKey (.cons (.object .nil .nil none) hfs))

omit hfs in
/-- An error of a token that begins no value. -/
theorem beginning_final {p : Nat} {t : Token} {e : Error} (h : beginning p t = .error e) : e.IsFinal := by
  unfold beginning at h
  split at h <;> (repeat' split at h) <;> cases h <;> rfl

theorem value_agrees (p : Nat) (t : Token) : Agrees Error.IsFinal State.Alike
    (do begin fs (← beginning p t)) (do begin fs' (← beginning p t)) := by
  cases hb : beginning p t with
  | error e => exact agrees_throw (beginning_final hb)
  | ok b => exact begin_agrees hfs b

theorem close_agrees : Agrees Error.IsFinal State.Alike (close fs) (close fs') := by
  cases hfs with
  | nil => exact agrees_pure (.reading .value .nil)
  | cons hf hfs =>
    have hmade : ∀ r r' : Reading Value, Agrees Error.IsFinal Twin (lift r) (lift r') →
        Agrees Error.IsFinal State.Alike (do place (.value (← lift r)) _)
          (do place (.value (← lift r')) _) :=
      fun r r' h => h.bind fun v w h => place_agrees hfs (.value h)
    cases hf with
    | array h =>
      exact hmade _ _ fun s s' => .inl ⟨_, _, rfl, rfl, .array _ _ (List.rel_reverse h)⟩
    | object hkeys hvalues key =>
      refine hmade _ _ fun s s' => .inl ⟨_, _, rfl, rfl, .object _ _ ?_ ?_⟩
      · simpa only [List.map_reverse] using List.rel_reverse hkeys
      · simpa only [List.map_reverse] using List.rel_reverse hvalues

theorem withKey_alike (t : Token) : (withKey t fs).Alike (withKey t fs') := by
  cases hfs with
  | nil => exact .reading _ .nil
  | cons hf hfs =>
    cases hf with
    | array h => exact .reading _ (.cons (.array h) hfs)
    | object hkeys hvalues key => exact .reading _ (.cons (.object hkeys hvalues _) hfs)

/-- Behind a value, both states go on alike. -/
theorem stepNext_agrees (p : Nat) (t : Token) :
    Agrees Error.IsFinal State.Alike (stepNext p t fs) (stepNext p t fs') := by
  have hnext : ∀ closer stage kinds, Agrees Error.IsFinal State.Alike
      (if t.kind = closer then close fs else if t.kind = .comma then return .reading stage fs
        else throw (.illegal t p kinds))
      (if t.kind = closer then close fs' else if t.kind = .comma then return .reading stage fs'
        else throw (.illegal t p kinds)) := by
    intro closer stage kinds
    split
    · exact close_agrees hfs
    · split
      · exact agrees_pure (.reading stage hfs)
      · exact agrees_throw rfl
  cases hfs with
  | nil => exact hnext _ _ _
  | cons hf hfs =>
    cases hf with
    | array => exact hnext _ _ _
    | object => exact hnext _ _ _

end Alike

/-- **One token** is read in both states or in none. -/
theorem step_agrees {st st' : State} (h : st.Alike st') (p : Nat) (t : Token) :
    Agrees Error.IsFinal State.Alike (stepToken p t st) (stepToken p t st') := by
  cases h with
  | done h =>
    rw [stepToken, stepToken]
    cases hb : beginning p t with
    | error e => exact agrees_throw (beginning_final hb)
    | ok b => exact refuse_agrees h b
  | reading stage hfs =>
    cases stage with
    | value => exact value_agrees hfs p t
    | firstItem =>
      rw [stepToken, stepToken]
      split
      · exact close_agrees hfs
      · exact value_agrees hfs p t
    | firstKey =>
      rw [stepToken, stepToken]
      split
      · exact close_agrees hfs
      · split
        · exact agrees_pure (withKey_alike hfs t)
        · exact agrees_throw rfl
    | key =>
      rw [stepToken, stepToken]
      split
      · exact agrees_pure (withKey_alike hfs t)
      · exact agrees_throw rfl
    | colon key =>
      rw [stepToken, stepToken]
      split
      · exact agrees_pure (.reading .value hfs)
      · exact agrees_throw rfl
    | next => exact stepNext_agrees hfs p t

/-- It is the same document that is cut off. -/
theorem finish_alike {fs fs' : List Frame} (hfs : List.Forall₂ Frame.Alike fs fs') (p : Nat)
    (stage : Stage) : finish p (.reading stage fs) = finish p (.reading stage fs') := by
  cases hfs with
  | nil => rfl
  | cons hf hfs => cases hf <;> rfl

/-- **All tokens** are read from both states or from none. -/
theorem readAll_agrees (values : Bool) (ts : List Token) {st st' : State} (h : st.Alike st') (p : Nat) :
    Agrees (fun _ => True) Document.Alike (readAll values p st (ts.map .token))
      (readAll values p st' (ts.map .token)) := by
  induction ts generalizing st st' p with
  | nil =>
    cases h with
    | done h => exact agrees_pure h
    | @reading stage fs fs' hfs =>
      obtain ⟨e, he⟩ := finish_reading p stage fs
      rw [List.map_nil, readAll, readAll, ← finish_alike hfs, he]
      exact agrees_throw trivial
  | cons t ts ih => exact (step_agrees h p t).forget.bind fun _ _ hst => ih hst (p + 1)

/-! ### One document -/

/-- There is no white space that stands at the end of a text. -/
def Unspaced (ts : List Token) : Prop := ∀ t ∈ ts, t.kind ≠ .trailingWhitespace

instance (ts : List Token) : Decidable (Unspaced ts) :=
  inferInstanceAs (Decidable (∀ t ∈ ts, t.kind ≠ .trailingWhitespace))

theorem withoutTrailing_unspaced {ts : List Token} (h : Unspaced ts) :
    withoutTrailing (ts.map .token) = ts.map .token := by
  unfold withoutTrailing
  split
  · rename_i e he
    rw [List.getLast?_map] at he
    obtain ⟨t, ht, rfl⟩ := Option.map_eq_some_iff.1 he
    have hkind := h t (List.mem_of_getLast? ht)
    rw [if_neg (by simpa [isTrailing] using hkind)]
  · rfl

/-- The tokens are read as one document, in some store. -/
def Accepted (ts : List Token) : Prop :=
  ∃ s d s', (document false (ts.map .token)).run.run s = (.ok d, s')

theorem accepted_of_isOk {ts : List Token} {s : Store}
    (h : ((document false (ts.map .token)).run.run s).1.isOk) : Accepted ts := by
  obtain ⟨d, hd⟩ := exists_of_isOk h
  exact ⟨s, d, _, Prod.ext hd rfl⟩

/-- Tokens that are read in some store are read in all of them. -/
theorem Accepted.run {ts : List Token} (hts : Unspaced ts) (h : Accepted ts) (s : Store) :
    ∃ d s', (readAll false 0 start (ts.map .token)).run.run s = (.ok d, s') := by
  obtain ⟨s₀, d, s₁, hrun⟩ := h
  rw [document, withoutTrailing_unspaced hts] at hrun
  have halike : start.Alike start := .reading .value .nil
  rcases readAll_agrees false ts halike 0 s₀ s with ⟨_, d', -, hd', -⟩ | ⟨e, -, he, -⟩
  · exact ⟨d', _, Prod.ext hd' rfl⟩
  · rw [hrun] at he
    cases he

/-- A document that is complete is not read on. -/
theorem readAll_done {p : Nat} {d : Document} {ts : List Token} {s s' : Store}
    (h : (readAll false p (.done d) (ts.map .token)).run.run s = (.ok d', s')) :
    ts = [] ∧ d' = d ∧ s' = s := by
  cases ts with
  | nil =>
    cases h
    exact ⟨rfl, rfl, rfl⟩
  | cons t ts =>
    rw [readAll_cons] at h
    obtain ⟨st, s₁, hstep, -⟩ := bind_ok h
    obtain ⟨e, s₂, herror⟩ := done_step_error (t := t) d p s
    cases hstep.symm.trans herror

/-- Tokens that end inside of a document can be completed. -/
theorem finish_incomplete (p : Nat) (stage : Stage) (fs : List Frame) :
    ∃ e, finish p (.reading stage fs) = .error e ∧ e.isIncomplete := by
  rcases fs with _ | ⟨_ | _, fs⟩ <;> exact ⟨_, rfl, rfl⟩

/-! ### One document after the other -/

section Many

variable {p : Nat} {st : State} {stage : Stage} {fs : List Frame} {t : Token} {ts us : List Token}
  {d : Document} {s s' : Store}

/-- The documents behind the first one. -/
def Documents.cons (d : Document) (ds : Documents) : Documents := { ds with documents := d :: ds.documents }

theorem readMany_complete (h : (stepToken p t st).run.run s = (.ok (.done d), s')) :
    (readMany p st ((t :: ts).map .token)).run s =
      ((readMany 0 start (ts.map .token)).run s').map (.cons d) id := by
  have hstep : (step false p st (.token t)).run.run s = (.ok (.done d), s') := h
  rw [List.map_cons, readMany, run_andThen, hstep]
  rfl

theorem readMany_goes (h : (stepToken p t st).run.run s = (.ok (.reading stage fs), s')) :
    (readMany p st ((t :: ts).map .token)).run s =
      (readMany (p + 1) (.reading stage fs) (ts.map .token)).run s' := by
  have hstep : (step false p st (.token t)).run.run s = (.ok (.reading stage fs), s') := h
  rw [List.map_cons, readMany, run_andThen, hstep]

theorem readMany_error {e : Error} (h : (stepToken p t st).run.run s = (.error e, s')) :
    (readMany p st ((t :: ts).map .token)).run s = ({ documents := [], error := some e }, s') := by
  have hstep : (step false p st (.token t)).run.run s = (.error e, s') := h
  rw [List.map_cons, readMany, run_andThen, hstep]
  rfl

/-- **A document in front** is read as it is read alone, and then the others are. -/
theorem readMany_append
    (h : (readAll false p (.reading stage fs) (ts.map .token)).run.run s = (.ok d, s')) :
    (readMany p (.reading stage fs) ((ts ++ us).map .token)).run s =
      ((readMany 0 start (us.map .token)).run s').map (.cons d) id := by
  induction ts generalizing p stage fs s with
  | nil =>
    obtain ⟨e, he⟩ := finish_reading p stage fs
    rw [List.map_nil, readAll, he] at h
    cases h
  | cons t ts ih =>
    rw [readAll_cons] at h
    obtain ⟨st, s₁, hstep, hrest⟩ := bind_ok h
    cases st with
    | done d' =>
      obtain ⟨rfl, rfl, rfl⟩ := readAll_done hrest
      exact readMany_complete hstep
    | reading stage' fs' => exact (readMany_goes hstep).trans (ih hrest)

/-- **A part of a document** is incomplete, for both readers. -/
theorem readAll_cut (hus : us ≠ [])
    (h : (readAll false p (.reading stage fs) ((ts ++ us).map .token)).run.run s = (.ok d, s')) :
    ∃ e s₁, e.isIncomplete ∧
      (readAll false p (.reading stage fs) (ts.map .token)).run.run s = (.error e, s₁) ∧
      (p ≠ 0 ∨ ts ≠ [] → (readMany p (.reading stage fs) (ts.map .token)).run s =
        ({ documents := [], error := some e }, s₁)) := by
  induction ts generalizing p stage fs s with
  | nil =>
    obtain ⟨e, he, hincomplete⟩ := finish_incomplete p stage fs
    -- Without any token there is no document that is incomplete, only the end of the documents.
    refine ⟨e, s, hincomplete, ?_, fun hstarted => ?_⟩
    · rw [List.map_nil, readAll, he]
      rfl
    · cases p with
      | zero => simp at hstarted
      | succ p =>
        simp only [List.map_nil, readMany, he]
        rfl
  | cons t ts ih =>
    rw [List.cons_append, readAll_cons] at h
    obtain ⟨st, s₁, hstep, hrest⟩ := bind_ok h
    cases st with
    | done d' => exact absurd (List.append_eq_nil_iff.1 (readAll_done hrest).1).2 hus
    | reading stage' fs' =>
      obtain ⟨e, s₂, hincomplete, hall, hmany⟩ := ih hrest
      refine ⟨e, s₂, hincomplete, ?_, fun _ => ?_⟩
      · rw [readAll_cons, bind_run hstep, hall]
      · rw [readMany_goes hstep, hmany (.inl (Nat.succ_ne_zero p))]

end Many

/-- Documents are read one by one, each in the store that the one before has left. -/
theorem readMany_flatten {tss : List (List Token)} (hspace : ∀ ts ∈ tss, Unspaced ts)
    (haccepted : ∀ ts ∈ tss, Accepted ts) (s : Store) : ∃ ds s',
      (tss.mapM fun ts => document false (ts.map .token)).run.run s = (.ok ds, s') ∧
      ∀ us : List Token, (readMany 0 start ((tss.flatten ++ us).map .token)).run s =
        ((readMany 0 start (us.map .token)).run s').map
          (fun rest => { rest with documents := ds ++ rest.documents }) id := by
  induction tss generalizing s with
  | nil => exact ⟨[], s, rfl, fun us => rfl⟩
  | cons ts tss ih =>
    obtain ⟨hts, hspace⟩ := List.forall_mem_cons.1 hspace
    obtain ⟨hread, haccepted⟩ := List.forall_mem_cons.1 haccepted
    obtain ⟨d, s₁, hd⟩ := hread.run hts s
    obtain ⟨ds, s', hds, hmany⟩ := ih hspace haccepted s₁
    refine ⟨d :: ds, s', ?_, fun us => ?_⟩
    · have hdocument : (document false (ts.map .token)).run.run s = (.ok d, s₁) := by
        rw [document, withoutTrailing_unspaced hts, hd]
      rw [List.mapM_cons, bind_run hdocument, bind_run hds]
      rfl
    · rw [List.flatten_cons, List.append_assoc, start, readMany_append hd, hmany]
      rfl

/-- **Documents one after the other.**  Let tokens be put together from lists that are documents.  Then
exactly these documents are read, in their order, each as it is read alone, and there is no error.  If a
part of another document follows them, they are read all the same, and then the tokens are incomplete; and
a part of a document is never read as one. -/
theorem documents_in_turn (tss : List (List Token)) (hspace : ∀ ts ∈ tss, Unspaced ts)
    (haccepted : ∀ ts ∈ tss, Accepted ts) (s : Store) : ∃ ds s',
      (tss.mapM fun ts => document false (ts.map .token)).run.run s = (.ok ds, s') ∧
      (readMany 0 start (withoutTrailing (tss.flatten.map .token))).run s = ({ documents := ds }, s') ∧
      ∀ us vs, us ≠ [] → vs ≠ [] → Unspaced (us ++ vs) → Accepted (us ++ vs) →
        (∃ e s'', e.isIncomplete ∧
          (readMany 0 start (withoutTrailing ((tss.flatten ++ us).map .token))).run s =
            ({ documents := ds, error := some e }, s'')) ∧
        ∃ e s'', e.isIncomplete ∧ (document false (us.map .token)).run.run s = (.error e, s'') := by
  have hflat : Unspaced tss.flatten := by
    intro t ht
    obtain ⟨ts, hts, ht⟩ := List.mem_flatten.1 ht
    exact hspace ts hts t ht
  obtain ⟨ds, s', hds, hall⟩ := readMany_flatten hspace haccepted s
  refine ⟨ds, s', hds, ?_, fun us vs hus hvs hspace' hread => ?_⟩
  · have hnone : (readMany 0 start (([] : List Token).map .token)).run s' = ({ documents := [] }, s') := rfl
    rw [withoutTrailing_unspaced hflat, ← List.append_nil tss.flatten, hall, hnone]
    simp [Prod.map]
  have hpart : Unspaced us := fun t ht => hspace' t (List.mem_append_left vs ht)
  refine ⟨?_, ?_⟩
  · obtain ⟨d, s₁, hd⟩ := hread.run hspace' s'
    obtain ⟨e, s₂, hincomplete, -, hmany⟩ := readAll_cut hvs hd
    refine ⟨e, s₂, hincomplete, ?_⟩
    rw [withoutTrailing_unspaced (List.forall_mem_append.2 ⟨hflat, hpart⟩), hall, start,
      hmany (.inr hus)]
    simp [Prod.map]
  · obtain ⟨d, s₁, hd⟩ := hread.run hspace' s
    obtain ⟨e, s₂, hincomplete, hall, -⟩ := readAll_cut hvs hd
    refine ⟨e, s₂, hincomplete, ?_⟩
    rw [document, withoutTrailing_unspaced hpart, start, hall]

/-- The theorem at three documents, with an array behind them that ends after its comma. -/
theorem documents_in_turn_three :
    let tss := ["1", "[true,\"a\"]", "\x7b\"k\":[]\x7d"].map fun source => (Token.scan source).tokens
    let us := (Token.scan "[1,").tokens
    let vs := (Token.scan "2]").tokens
    (∀ ts ∈ tss, Unspaced ts) ∧ (∀ ts ∈ tss, Accepted ts) ∧ Unspaced (us ++ vs) ∧ Accepted (us ++ vs) ∧
      ∃ ds s' e s'', (tss.mapM fun ts => document false (ts.map .token)).run.run {} = (.ok ds, s') ∧
        (readMany 0 start (withoutTrailing (tss.flatten.map .token))).run {} = ({ documents := ds }, s') ∧
        e.isIncomplete ∧ (readMany 0 start (withoutTrailing ((tss.flatten ++ us).map .token))).run {} =
          ({ documents := ds, error := some e }, s'') := by
  intro tss us vs
  have hspace : ∀ ts ∈ tss, Unspaced ts := by decide +kernel
  have hread : ∀ ts ∈ tss, ((document false (ts.map .token)).run.run {}).1.isOk := by decide +kernel
  have haccepted : ∀ ts ∈ tss, Accepted ts := fun ts hts => accepted_of_isOk (hread ts hts)
  have hcut : Accepted (us ++ vs) :=
    accepted_of_isOk (s := {}) (by decide +kernel)
  have hspace' : Unspaced (us ++ vs) := by decide +kernel
  obtain ⟨ds, s', hds, hall, hpart⟩ := documents_in_turn tss hspace haccepted {}
  obtain ⟨⟨e, s'', he, hmany⟩, -⟩ := hpart us vs (by decide +kernel) (by decide +kernel) hspace' hcut
  exact ⟨hspace, haccepted, hspace', hcut, ds, s', e, s'', hds, hall, he, hmany⟩

end FilterShell.Json
