import FilterShell.Proofs.Decimal.Digits
import FilterShell.Proofs.Json.Grammar
import FilterShell.Proofs.Token.Regular
import FilterShell.Proofs.Value.Making

/-!
# Reading JSON token by token

`Demand` says which tokens complete a state of the reader, and what the whole then says.  One token takes a
state to another that demands the rest; where it may not stand, nothing could have completed the state
(`step_meets`).  So tokens are read to the end exactly if the first state demands them (`readAll_meets`).
-/

namespace FilterShell

variable {pairs : List (Value × Value)} {d : Document}

open Reading (Gives)

variable {start s : Store} {home home' : Nat → Value}

/-- The number of a token is not too long for an exact number. -/
def Token.Fits (t : Token) : Prop := ∀ w, t.kind = .number → t.text = some w →
  Decimal.digits (Decimal.natOf w) ≤ 1000000000000000000

/-- There is no surrogate in the string of a token. -/
def Token.WellFormed (t : Token) : Prop := ∀ w, t.kind = .string → t.text = some w → w.isWellFormed

namespace Json

/-- What a document says. -/
def Document.content : Document → Datum
  | .text t   => .text t
  | .value v  => v.content
  | .textless => .null

/-- The document has a text that a string can hold, or a value other than a string, whose containers are
at home. -/
def Document.Housed (home : Nat → Value) : Document → Prop
  | .text t   => t.isWellFormed
  | .value v  => v.Housed home ∧ v.kind ≠ .string
  | .textless => False

theorem Document.Housed.extend (h : Extends home home') (hd : d.Housed home) : d.Housed home' := by
  cases d with
  | text t => exact hd
  | value v => exact ⟨hd.1.extend h, hd.2⟩
  | textless => exact hd

theorem makes_toValue (hs : Grown start home s) (hd : d.Housed home) :
    Makes start home s d.toValue fun home' v => v.Housed home' ∧ v.content = d.content := by
  cases d with
  | text t =>
    obtain ⟨v, home', s', hgives, hgrown, hext, i, rfl, hi⟩ := makes_text hs hd
    exact ⟨_, home', s', hgives, hgrown, hext, .string hi, congrArg Datum.text (by simp)⟩
  | value v => exact ⟨v, home, s, rfl, hs, fun _ _ => rfl, hd.1, rfl⟩
  | textless => exact hd.elim

/-! ### What completes a state -/

/-- The tokens complete containers of which the innermost has just got the datum, and all say `x`. -/
def Closes (x : Datum) : List Frame → Datum → List Token → Prop
  | [], y, ts                       => ts = [] ∧ x = y
  | .array items :: fs, y, ts       =>
    Goes IsValue .closeArray
      (fun ys => Closes x fs (.list (Value.contents items.reverse ++ y :: ys))) ts
  | .object pairs key :: fs, y, ts  =>
    Goes IsMember .closeObject (fun ms => Closes x fs (.object (Datum.record
      (Value.members pairs.reverse ++ (key.getD [], y) :: ms)))) ts

/-- The tokens complete a state, and all say `x`. -/
def Demand (x : Datum) : State → List Token → Prop
  | .done d, ts                                      => ts = [] ∧ x = d.content
  | .reading .value fs, ts                           => Starts IsValue (Closes x fs) ts
  | .reading .firstItem (.array _ :: fs), ts         =>
    Starts (Enclosed IsValue .closeArray) (fun ys => Closes x fs (.list ys)) ts
  | .reading .firstKey (.object _ _ :: fs), ts       =>
    Starts (Enclosed IsMember .closeObject) (fun ms => Closes x fs (.object (Datum.record ms))) ts
  | .reading .key (.object pairs _ :: fs), ts        =>
    Starts (Separated IsMember) (fun ms => Symbol .closeObject
      (Closes x fs (.object (Datum.record (Value.members pairs.reverse ++ ms))))) ts
  | .reading (.colon _) fs, ts                       =>
    Symbol .colon (Starts IsValue (Closes x fs)) ts
  | .reading .next (.array items :: fs), ts          =>
    Goes IsValue .closeArray (fun ys => Closes x fs (.list (Value.contents items.reverse ++ ys))) ts
  | .reading .next (.object pairs _ :: fs), ts       =>
    Goes IsMember .closeObject (fun ms => Closes x fs (.object (Datum.record
      (Value.members pairs.reverse ++ ms)))) ts
  | _, _                                             => False

/-- Open containers that wait for a value: the entry of an object has a key. -/
inductive Framed (home : Nat → Value) : List Frame → Prop
  | nil : Framed home []
  | array {items : List Value} {fs : List Frame} (hitems : ∀ v ∈ items, v.Housed home)
      (hfs : Framed home fs) : Framed home (.array items :: fs)
  | object {pairs : List (Value × Value)} {key : Text} {fs : List Frame} (hpairs : Paired home pairs)
      (hkey : key.isWellFormed) (hfs : Framed home fs) : Framed home (.object pairs (some key) :: fs)

/-- States that the reader gets into. -/
inductive Sound (home : Nat → Value) : State → Prop
  | done {d : Document} (hd : d.Housed home) : Sound home (.done d)
  | value {fs : List Frame} (hfs : Framed home fs) : Sound home (.reading .value fs)
  | firstItem {fs : List Frame} (hfs : Framed home fs) :
      Sound home (.reading .firstItem (.array [] :: fs))
  | firstKey {key : Option Text} {fs : List Frame} (hfs : Framed home fs) :
      Sound home (.reading .firstKey (.object [] key :: fs))
  | key {pairs : List (Value × Value)} {key : Option Text} {fs : List Frame}
      (hpairs : Paired home pairs) (hfs : Framed home fs) :
      Sound home (.reading .key (.object pairs key :: fs))
  | colon {t : Token} {fs : List Frame} (hfs : Framed home fs) : Sound home (.reading (.colon t) fs)
  | nextItem {items : List Value} {fs : List Frame} (hitems : ∀ v ∈ items, v.Housed home)
      (hfs : Framed home fs) : Sound home (.reading .next (.array items :: fs))
  | nextMember {pairs : List (Value × Value)} {key : Option Text} {fs : List Frame}
      (hpairs : Paired home pairs) (hfs : Framed home fs) :
      Sound home (.reading .next (.object pairs key :: fs))

theorem Framed.extend (h : Extends home home') {fs : List Frame} (hfs : Framed home fs) :
    Framed home' fs := by
  induction hfs with
  | nil => exact .nil
  | array hitems _ ih => exact .array (fun v hv => (hitems v hv).extend h) ih
  | object hpairs hkey _ ih => exact .object (hpairs.extend h) hkey ih

/-! ### One token -/

/-- The computation goes on to a state that demands what was demanded, or fails where nothing was. -/
inductive Meets (start s : Store) (r : Parsing State) (D : Datum → List Token → Prop) : Prop
  | ok {st : State} {home : Nat → Value} {s' : Store} (hrun : r.run.run s = (.ok st, s'))
      (hgrown : Grown start home s') (hsound : Sound home st)
      (hdemand : ∀ x ts, D x ts ↔ Demand x st ts)
  | error {e : Error} {s' : Store} (hrun : r.run.run s = (.error e, s')) (hnone : ∀ x ts, ¬ D x ts)

namespace Meets

variable {r r' : Parsing State} {D D' : Datum → List Token → Prop} {s' : Store}

theorem of_run (hrun : r.run.run s = r'.run.run s') (h : Meets start s' r' D) :
    Meets start s r D := by
  cases h with
  | ok hrun' hgrown hsound hdemand => exact .ok (hrun.trans hrun') hgrown hsound hdemand
  | error hrun' hnone => exact .error (hrun.trans hrun') hnone

theorem congr (h : Meets start s r D) (hD : ∀ x ts, D' x ts ↔ D x ts) : Meets start s r D' := by
  cases h with
  | ok hrun hgrown hsound hdemand =>
    exact .ok hrun hgrown hsound fun x ts => (hD x ts).trans (hdemand x ts)
  | error hrun hnone => exact .error hrun fun x ts h => hnone x ts ((hD x ts).1 h)

end Meets

section Parsing

variable {α β : Type} {r : Parsing α} {f : α → Parsing β} {s' : Store}

theorem bind_run {x : α} (h : r.run.run s = (.ok x, s')) :
    (r >>= f).run.run s = (f x).run.run s' := by
  rw [ExceptT.run_bind, StateT.run_bind, h]
  rfl

theorem bind_error {e : Error} (h : r.run.run s = (.error e, s')) :
    (r >>= f).run.run s = (.error e, s') := by
  rw [ExceptT.run_bind, StateT.run_bind, h]
  rfl

theorem lift_run {r : Reading α} {x : α} (h : Gives s r x s') :
    (lift r >>= f).run.run s = (f x).run.run s' := by
  have hrun : (lift r).run.run s =
      ((r.outcome.run s).1.mapError Error.fault, (r.outcome.run s).2) := rfl
  refine bind_run (hrun.trans ?_)
  rw [h]
  rfl

end Parsing

variable {fs : List Frame} {t : Token}

theorem contents_reverse (v : Value) (items : List Value) (ys : List Datum) :
    Value.contents (v :: items).reverse ++ ys = Value.contents items.reverse ++ v.content :: ys := by
  simp [Value.contents_eq]

theorem members_reverse (k v : Value) (pairs : List (Value × Value)) (ms : List (Text × Datum)) :
    Value.members ((k, v) :: pairs).reverse ++ ms =
      Value.members pairs.reverse ++ (k.keyText, v.content) :: ms := by
  simp [Value.members_eq]

/-- A document is put where a value was awaited. -/
theorem place_meets (hs : Grown start home s) (hfs : Framed home fs)
    (hd : d.Housed home) : Meets start s (place d fs) fun x => Closes x fs d.content := by
  cases hfs with
  | nil => exact .ok rfl hs (.done hd) fun x ts => Iff.rfl
  | array hitems hfs =>
    obtain ⟨v, home', s', hgives, hgrown, hext, hv, hcontent⟩ := makes_toValue hs hd
    refine .ok (lift_run hgives) hgrown (.nextItem (List.forall_mem_cons.2
      ⟨hv, fun w hw => (hitems w hw).extend hext⟩) (hfs.extend hext)) fun x ts => ?_
    simp only [Demand, Closes, contents_reverse, hcontent]
  | @object pairs key fs hpairs hkey hfs =>
    obtain ⟨k, home₁, s₁, hgives₁, hgrown₁, hext₁, i, rfl, hi⟩ := makes_text hs hkey
    obtain ⟨v, home₂, s₂, hgives₂, hgrown₂, hext₂, hv, hcontent⟩ :=
      makes_toValue hgrown₁ (hd.extend hext₁)
    have hext := hext₁.trans hext₂
    refine .ok ((lift_run hgives₁).trans (lift_run hgives₂)) hgrown₂ (.nextMember
      ((hpairs.extend hext).cons (hext₂.eq hi rfl) hv) (hfs.extend hext)) fun x ts => ?_
    simp only [Demand, Closes, members_reverse, hcontent, Value.keyText, Option.getD_some,
      List.flatten_singleton]

/-- A container is put there when it has been made. -/
theorem place_made_meets (hfs : Framed home fs) {r : Reading Value} {kind : Value.Kind} {y : Datum}
    (hkind : kind ≠ .string)
    (hr : Makes start home s r fun home' v => v.Housed home' ∧ v.kind = kind ∧ v.content = y) :
    Meets start s (do place (.value (← lift r)) fs) fun x => Closes x fs y := by
  obtain ⟨v, home', s', hgives, hgrown, hext, hv, rfl, rfl⟩ := hr
  exact .of_run (lift_run hgives) (place_meets hgrown (hfs.extend hext) ⟨hv, hkind⟩)

/-- An array ends. -/
theorem close_array_meets (hs : Grown start home s) (hfs : Framed home fs) {items : List Value}
    (hitems : ∀ v ∈ items, v.Housed home) : Meets start s (close (.array items :: fs)) fun x =>
      Closes x fs (.list (Value.contents items.reverse)) :=
  place_made_meets hfs (by decide) (makes_array hs fun v hv => hitems v (List.mem_reverse.1 hv))

/-- An object ends. -/
theorem close_object_meets (hs : Grown start home s) (hfs : Framed home fs)
    (hpairs : Paired home pairs) (key : Option Text) :
    Meets start s (close (.object pairs key :: fs)) fun x =>
      Closes x fs (.object (Datum.record (Value.members pairs.reverse))) :=
  place_made_meets hfs (by decide) (makes_object hs hpairs.reverse)

/-- The key of an entry that begins is one that a string can hold. -/
theorem checkKey_run (hs : Grown start home s) (hfs : Framed home fs) :
    ∃ home' s', (checkKey fs).run.run s = (.ok (), s') ∧ Grown start home' s' ∧
      Extends home home' := by
  cases hfs with
  | nil => exact ⟨home, s, rfl, hs, fun _ _ => rfl⟩
  | array => exact ⟨home, s, rfl, hs, fun _ _ => rfl⟩
  | object _ hkey _ =>
    obtain ⟨k, home', s', hgives, hgrown, hext, -⟩ := makes_text hs hkey
    exact ⟨home', s', lift_run hgives, hgrown, hext⟩

/-! A token at the place of a value. -/

/-- A number is read if it is not too long. -/
theorem beginning_number {w : Text} (ht : t.Regular) (hkind : t.kind = .number)
    (htext : t.text = some w) (p : Nat) :
    beginning p t = if Decimal.digits (Decimal.natOf w) ≤ 1000000000000000000
      then .ok (.number (.ofNat (Decimal.natOf w)))
      else .error (.fault (.arithmetic .invalidOperation)) := by
  rw [Token.Regular, hkind] at ht
  obtain ⟨w', htext', hne, hdigits⟩ := ht
  obtain rfl : w = w' := Option.some.inj (htext.symm.trans htext')
  rw [beginning, hkind, htext]
  dsimp only
  rw [Decimal.read?_digits hne hdigits]
  by_cases hsize : Decimal.digits (Decimal.natOf w) ≤ 1000000000000000000
  · rw [if_pos hsize, if_pos hsize]
  · rw [if_neg hsize, if_neg hsize]

/-- What begins with a scalar. -/
theorem beginning_scalar {x : Datum} (hx : IsScalar t x) (ht : t.Regular) (hfits : t.Fits)
    (hwell : t.WellFormed) (p : Nat) : ∃ b, beginning p t = .ok b ∧
      ((∃ d : Document, b = .whole d ∧ d.content = x ∧ ∀ home, d.Housed home) ∨
        ∃ n, b = .number (.ofNat n) ∧ x = .number (.ofNat n)) := by
  cases hx with
  | false hkind htext =>
    refine ⟨_, ?_, .inl ⟨.value (.bool false), rfl, rfl, fun home => ⟨.bool false, ?_⟩⟩⟩
    · rw [beginning, hkind, htext]
      rfl
    · decide
  | null hkind htext =>
    refine ⟨_, ?_, .inl ⟨.value .null, rfl, rfl, fun home => ⟨.null, ?_⟩⟩⟩
    · rw [beginning, hkind, htext]
      rfl
    · decide
  | true hkind htext =>
    refine ⟨_, ?_, .inl ⟨.value (.bool true), rfl, rfl, fun home => ⟨.bool true, ?_⟩⟩⟩
    · rw [beginning, hkind, htext]
      rfl
    · decide
  | @number w hkind htext =>
    refine ⟨_, ?_, .inr ⟨Decimal.natOf w, rfl, rfl⟩⟩
    rw [beginning_number ht hkind htext, if_pos (hfits w hkind htext)]
  | @string w hkind htext =>
    refine ⟨_, ?_, .inl ⟨.text w, rfl, rfl, fun home => hwell w hkind htext⟩⟩
    rw [beginning, hkind, htext]

/-- Nothing begins with a token that begins no value. -/
theorem beginning_error (ht : t.Regular) (hscalar : ∀ y, ¬ IsScalar t y)
    (harray : t.kind ≠ .openArray) (hobject : t.kind ≠ .openObject) (p : Nat) :
    ∃ e, beginning p t = .error e := by
  unfold beginning
  split
  case h_1 n hkind htext =>
    by_cases hfalse : n = Text.ofString "false"
    · exact absurd (.false hkind (htext.trans (congrArg some hfalse))) (hscalar _)
    by_cases hnull : n = Text.ofString "null"
    · exact absurd (.null hkind (htext.trans (congrArg some hnull))) (hscalar _)
    by_cases htrue : n = Text.ofString "true"
    · exact absurd (.true hkind (htext.trans (congrArg some htrue))) (hscalar _)
    rw [if_neg hfalse, if_neg hnull, if_neg htrue]
    exact ⟨_, rfl⟩
  case h_3 d hkind htext => exact absurd (.number hkind htext) (hscalar _)
  case h_5 w hkind htext => exact absurd (.string hkind htext) (hscalar _)
  case h_6 hkind htext =>
    rw [Token.Regular, hkind] at ht
    obtain ⟨w, hw⟩ := ht
    cases htext.symm.trans hw
  case h_7 hkind => exact absurd hkind harray
  case h_8 hkind => exact absurd hkind hobject
  all_goals exact ⟨_, rfl⟩

theorem begin_run {p : Nat} {b : Beginning} (hb : beginning p t = .ok b) (fs : List Frame) (s : Store) :
    (do begin fs (← beginning p t) : Parsing State).run.run s = (begin fs b).run.run s := by
  rw [hb]
  rfl

theorem begin_error {p : Nat} {e : Error} (he : beginning p t = .error e) (fs : List Frame) (s : Store) :
    (do begin fs (← beginning p t) : Parsing State).run.run s = (.error e, s) := by
  rw [he]
  rfl

/-- **A token at the place of a value.** -/
theorem value_meets (hs : Grown start home s) (hfs : Framed home fs) (ht : t.Regular)
    (hfits : t.Fits) (hwell : t.WellFormed) (p : Nat) :
    Meets start s (do begin fs (← beginning p t)) fun x ts =>
      Starts IsValue (Closes x fs) (t :: ts) := by
  by_cases hscalar : ∃ y, IsScalar t y
  · obtain ⟨y, hy⟩ := hscalar
    obtain ⟨b, hb, hwhole⟩ := beginning_scalar hy ht hfits hwell p
    refine Meets.congr (.of_run (begin_run hb fs s) ?_) fun x ts => starts_scalar hy
    rcases hwhole with ⟨d, rfl, rfl, hd⟩ | ⟨n, rfl, rfl⟩
    · exact place_meets hs hfs (hd home)
    · have hn : Document.Housed home (.value (.number 0 (.ofNat n))) :=
        ⟨.number 0 _, by simp [Value.kind]⟩
      have hgives : Gives s (Value.ofDecimal (.ofNat n)) (.number 0 (.ofNat n)) s := rfl
      exact .of_run (lift_run hgives) (place_meets hs hfs hn)
  have hscalar : ∀ y, ¬ IsScalar t y := fun y hy => hscalar ⟨y, hy⟩
  by_cases harray : t.kind = .openArray
  · obtain ⟨home', s', hkey, hgrown, hext⟩ := checkKey_run hs hfs
    have hb : beginning p t = .ok .array := by rw [beginning, harray]
    exact .ok ((begin_run hb fs s).trans (bind_run hkey)) hgrown (.firstItem (hfs.extend hext))
      fun x ts => starts_array harray
  by_cases hobject : t.kind = .openObject
  · obtain ⟨home', s', hkey, hgrown, hext⟩ := checkKey_run hs hfs
    have hb : beginning p t = .ok .object := by rw [beginning, hobject]
    exact .ok ((begin_run hb fs s).trans (bind_run hkey)) hgrown (.firstKey (hfs.extend hext))
      fun x ts => starts_object hobject
  · obtain ⟨e, he⟩ := beginning_error ht hscalar harray hobject p
    exact .error (begin_error he fs s) fun x ts => not_starts_value hscalar harray hobject

/-! A token at any other place. -/

theorem throw_run (check : Parsing Unit) (e : Error) (s : Store) :
    ∃ e' s', (check >>= fun _ => (throw e : Parsing State)).run.run s = (.error e', s') := by
  rcases hcheck : check.run.run s with ⟨e' | _, s'⟩
  · exact ⟨e', s', bind_error hcheck⟩
  · exact ⟨e, s', bind_run hcheck⟩

/-- Nothing can be added to a whole document. -/
theorem refuse_run (d : Document) (b : Beginning) (s : Store) :
    ∃ e s', (refuse d b).run.run s = (.error e, s') := by
  cases d with
  | text | textless => exact ⟨_, _, rfl⟩
  | value v =>
    cases v with
    | array | object => exact throw_run _ _ s
    | string =>
      cases b with
      | whole d =>
        cases d with
        | text => exact throw_run _ _ s
        | value | textless => exact ⟨_, _, rfl⟩
      | number | array | object => exact ⟨_, _, rfl⟩
    | exception | null | bool | number => exact ⟨_, _, rfl⟩

/-- Behind a whole document no token is read. -/
theorem done_step_error (d : Document) (p : Nat) (s : Store) :
    ∃ e s', (stepToken p t (.done d)).run.run s = (.error e, s') := by
  cases hb : beginning p t with
  | error e =>
    refine ⟨e, s, ?_⟩
    rw [stepToken, hb]
    rfl
  | ok b =>
    obtain ⟨e, s', hrun⟩ := refuse_run d b s
    refine ⟨e, s', ?_⟩
    rw [stepToken, hb]
    exact hrun

theorem done_step_meets (d : Document) (p : Nat) :
    Meets start s (stepToken p t (.done d)) fun x ts => Demand x (.done d) (t :: ts) := by
  obtain ⟨e, s', hrun⟩ := done_step_error d p s
  exact .error hrun fun x ts h => List.cons_ne_nil _ _ h.1

/-- The first item of an array, or its end. -/
theorem firstItem_step_meets (hs : Grown start home s) (hfs : Framed home fs) (ht : t.Regular)
    (hfits : t.Fits) (hwell : t.WellFormed) (p : Nat) :
    Meets start s (stepToken p t (.reading .firstItem (.array [] :: fs))) fun x ts =>
      Demand x (.reading .firstItem (.array [] :: fs)) (t :: ts) := by
  rw [stepToken]
  by_cases hclose : t.kind = .closeArray
  · rw [if_pos hclose]
    refine (close_array_meets hs hfs (List.forall_mem_nil _)).congr fun x ts => ?_
    have hvalue : ∀ rest, ¬ Starts IsValue rest (t :: ts) := fun rest =>
      not_starts_value (fun y hy => absurd hy.kind (by simp [hclose])) (by simp [hclose])
        (by simp [hclose])
    rw [Demand, starts_enclosed, starts_separated, symbol_cons, or_iff_left (hvalue _),
      and_iff_right hclose]
    rfl
  · rw [if_neg hclose]
    refine (value_meets hs (.array (List.forall_mem_nil _) hfs) ht hfits hwell p).congr
      fun x ts => ?_
    rw [Demand, starts_enclosed, starts_separated, symbol_cons, or_iff_right fun h => hclose h.1]
    rfl

theorem not_starts_members (hkind : t.kind ≠ .string) {closer : Token.Kind}
    {rest : List (Text × Datum) → List Token → Prop} {ts : List Token} :
    ¬ Starts (Separated IsMember) (fun ms => Symbol closer (rest ms)) (t :: ts) := by
  rw [starts_separated, starts_member]
  exact fun h => hkind h.1

/-- The key of a member. -/
theorem key_meets (hs : Grown start home s) (hfs : Framed home fs)
    (hpairs : Paired home pairs) (ht : t.Regular) (hwell : t.WellFormed) (hkind : t.kind = .string)
    (key : Option Text) :
    Meets start s (return withKey t (.object pairs key :: fs)) fun x ts =>
      Starts (Separated IsMember) (fun ms => Symbol .closeObject
        (Closes x fs (.object (Datum.record (Value.members pairs.reverse ++ ms))))) (t :: ts) := by
  rw [Token.Regular, hkind] at ht
  obtain ⟨w, htext⟩ := ht
  have hkey : withKey t (.object pairs key :: fs) =
      .reading (.colon t) (.object pairs (some w) :: fs) := by
    rw [withKey, htext]
  rw [hkey]
  refine .ok rfl hs (.colon (.object hpairs (hwell w hkind htext) hfs)) fun x ts => ?_
  rw [starts_separated, starts_member, and_iff_right hkind, Demand]
  constructor
  · rintro ⟨w', htext', hcolon⟩
    obtain rfl : w = w' := Option.some.inj (htext.symm.trans htext')
    exact hcolon
  · exact fun hcolon => ⟨w, htext, hcolon⟩

/-- The first key of an object, or its end. -/
theorem firstKey_step_meets (hs : Grown start home s) (hfs : Framed home fs) (ht : t.Regular)
    (hwell : t.WellFormed) (key : Option Text) (p : Nat) :
    Meets start s (stepToken p t (.reading .firstKey (.object [] key :: fs))) fun x ts =>
      Demand x (.reading .firstKey (.object [] key :: fs)) (t :: ts) := by
  have hnone : Paired home [] := ⟨List.forall_mem_nil _, List.forall_mem_nil _⟩
  rw [stepToken]
  by_cases hclose : t.kind = .closeObject
  · rw [if_pos hclose]
    refine (close_object_meets hs hfs hnone key).congr fun x ts => ?_
    rw [Demand, starts_enclosed, or_iff_left (not_starts_members (by simp [hclose])), symbol_cons,
      and_iff_right hclose]
    rfl
  rw [if_neg hclose]
  by_cases hkind : t.kind = .string
  · rw [if_pos hkind]
    refine (key_meets hs hfs hnone ht hwell hkind key).congr fun x ts => ?_
    rw [Demand, starts_enclosed, symbol_cons, or_iff_right fun h => hclose h.1]
    rfl
  · rw [if_neg hkind]
    refine .error rfl fun x ts => ?_
    rw [Demand, starts_enclosed]
    rintro (h | h)
    · exact hclose h.1
    · exact not_starts_members hkind h

/-- Behind a part of a container there is its end, or a comma and the next part. -/
theorem next_meets {α : Type} {P : List Token → α → Prop} {closer : Token.Kind}
    {rest : Datum → List α → List Token → Prop} {more : State} {closed : Parsing State}
    (hmore : ∀ x ts, Starts (Separated P) (fun ys => Symbol closer (rest x ys)) ts ↔
      Demand x more ts) (hsound : Sound home more) (hs : Grown start home s)
    (hclosed : Meets start s closed fun x => rest x []) (hne : closer ≠ .comma) (e : Error) :
    Meets start s
      (if t.kind = closer then closed else if t.kind = .comma then return more else throw e)
      fun x ts => Goes P closer (rest x) (t :: ts) := by
  by_cases hclose : t.kind = closer
  · rw [if_pos hclose]
    exact hclosed.congr fun x ts => goes_closer hclose hne
  rw [if_neg hclose]
  by_cases hcomma : t.kind = .comma
  · rw [if_pos hcomma]
    exact .ok rfl hs hsound fun x ts => (goes_comma hcomma hne).trans (hmore x ts)
  · rw [if_neg hcomma]
    exact .error rfl fun x ts => not_goes hclose hcomma

theorem nextItem_step_meets (hs : Grown start home s) (hfs : Framed home fs) {items : List Value}
    (hitems : ∀ v ∈ items, v.Housed home) (p : Nat) :
    Meets start s (stepToken p t (.reading .next (.array items :: fs))) fun x ts =>
      Demand x (.reading .next (.array items :: fs)) (t :: ts) := by
  have hmore : ∀ x ts, Starts (Separated IsValue) (fun ys => Symbol .closeArray
      (Closes x fs (.list (Value.contents items.reverse ++ ys)))) ts ↔
        Demand x (.reading .value (.array items :: fs)) ts := fun x ts => starts_separated
  refine next_meets hmore (.value (.array hitems hfs)) hs ?_ (by decide)
    (.illegal t p [.closeArray, .comma])
  rw [List.append_nil]
  exact close_array_meets hs hfs hitems

theorem nextMember_step_meets (hs : Grown start home s) (hfs : Framed home fs)
    (hpairs : Paired home pairs) (key : Option Text) (p : Nat) :
    Meets start s (stepToken p t (.reading .next (.object pairs key :: fs))) fun x ts =>
      Demand x (.reading .next (.object pairs key :: fs)) (t :: ts) := by
  have hmore : ∀ x ts, Starts (Separated IsMember) (fun ms => Symbol .closeObject
      (Closes x fs (.object (Datum.record (Value.members pairs.reverse ++ ms))))) ts ↔
        Demand x (.reading .key (.object pairs key :: fs)) ts := fun x ts => Iff.rfl
  refine next_meets hmore (.key hpairs hfs) hs ?_ (by decide)
    (.illegal t p [.closeObject, .comma])
  rw [List.append_nil]
  exact close_object_meets hs hfs hpairs key

/-- **One token** takes a state to one that demands the rest, or it was not demanded. -/
theorem step_meets (hs : Grown start home s) {st : State} (hst : Sound home st) (ht : t.Regular)
    (hfits : t.Fits) (hwell : t.WellFormed) (p : Nat) :
    Meets start s (stepToken p t st) fun x ts => Demand x st (t :: ts) := by
  cases hst with
  | @done d _ => exact done_step_meets d p
  | value hfs => exact value_meets hs hfs ht hfits hwell p
  | firstItem hfs => exact firstItem_step_meets hs hfs ht hfits hwell p
  | @firstKey key fs hfs => exact firstKey_step_meets hs hfs ht hwell key p
  | @key pairs key fs hpairs hfs =>
    rw [stepToken]
    by_cases hkind : t.kind = .string
    · rw [if_pos hkind]
      exact key_meets hs hfs hpairs ht hwell hkind key
    · rw [if_neg hkind]
      exact .error rfl fun x ts => not_starts_members hkind
  | colon hfs =>
    rw [stepToken]
    by_cases hcolon : t.kind = .colon
    · rw [if_pos hcolon]
      exact .ok rfl hs (.value hfs) fun x ts => and_iff_right hcolon
    · rw [if_neg hcolon]
      exact .error rfl fun x ts h => hcolon h.1
  | nextItem hitems hfs => exact nextItem_step_meets hs hfs hitems p
  | @nextMember pairs key fs hpairs hfs => exact nextMember_step_meets hs hfs hpairs key p

/-! ### All tokens -/

/-- The computation gives a document that says what was demanded, or fails where nothing was. -/
inductive Ends (start s : Store) (r : Parsing Document) (D : Datum → Prop) : Prop
  | ok {d : Document} {home : Nat → Value} {s' : Store} (hrun : r.run.run s = (.ok d, s'))
      (hgrown : Grown start home s') (hd : d.Housed home) (hdemand : ∀ x, D x ↔ x = d.content)
  | error {e : Error} {s' : Store} (hrun : r.run.run s = (.error e, s')) (hnone : ∀ x, ¬ D x)

/-- A state that is not done is not complete. -/
theorem not_demand_nil {stage : Stage} (hst : Sound home (.reading stage fs)) (x : Datum) :
    ¬ Demand x (.reading stage fs) [] := by
  cases hst with
  | value => exact starts_value_nil
  | firstItem =>
    rw [Demand, starts_enclosed, starts_separated]
    rintro (h | h)
    · exact h
    · exact starts_value_nil h
  | firstKey =>
    rw [Demand, starts_enclosed, starts_separated]
    rintro (h | h)
    · exact h
    · exact starts_member_nil h
  | key =>
    rw [Demand, starts_separated]
    exact starts_member_nil
  | colon => exact id
  | nextItem => exact fun h => h.elim id id
  | nextMember => exact fun h => h.elim id id

theorem readAll_cons (values : Bool) (p : Nat) (st : State) (t : Token) (ts : List Token) :
    readAll values p st ((t :: ts).map .token) =
      stepToken p t st >>= fun st => readAll values (p + 1) st (ts.map .token) := rfl

/-- The tokens must not end before the document. -/
theorem finish_reading (p : Nat) (stage : Stage) (fs : List Frame) :
    ∃ e, finish p (.reading stage fs) = .error e := by
  rcases fs with _ | ⟨_ | _, fs⟩ <;> exact ⟨_, rfl⟩

/-- **Tokens are read to the end exactly if they complete the state.** -/
theorem readAll_meets (values : Bool) {ts : List Token}
    (hts : ∀ t ∈ ts, t.Regular ∧ t.Fits ∧ t.WellFormed) {st : State} (hs : Grown start home s)
    (hst : Sound home st) (p : Nat) :
    Ends start s (readAll values p st (ts.map .token)) fun x => Demand x st ts := by
  induction ts generalizing s home st p with
  | nil =>
    cases st with
    | done d =>
      cases hst with
      | done hd => exact .ok rfl hs hd fun x => and_iff_right rfl
    | reading stage fs =>
      obtain ⟨e, he⟩ := finish_reading p stage fs
      have hrun : (readAll values p (.reading stage fs) []).run.run s = (.error e, s) := by
        rw [readAll, he]
        rfl
      exact .error hrun (not_demand_nil hst)
  | cons t ts ih =>
    obtain ⟨⟨ht, hfits, hwell⟩, hts⟩ := List.forall_mem_cons.1 hts
    rw [readAll_cons]
    cases step_meets hs hst ht hfits hwell p with
    | ok hrun hgrown hsound hdemand =>
      cases ih hts hgrown hsound (p + 1) with
      | ok hrun' hgrown' hd hD =>
        exact .ok ((bind_run hrun).trans hrun') hgrown' hd fun x => (hdemand x ts).trans (hD x)
      | error hrun' hnone =>
        exact .error ((bind_run hrun).trans hrun') fun x h => hnone x ((hdemand x ts).1 h)
    | error hrun hnone => exact .error (bind_error hrun) fun x => hnone x ts

end Json

end FilterShell
