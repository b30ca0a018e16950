import FilterShell.Proofs.Json.Reading

/-!
# Which tokens are read as a document

The lists of tokens that are read are the documents of the grammar, as long as no number is too long for an
exact one, and what is made of one says what the grammar says.  All its containers are complete and unread, so
reading it never waits: `document_grammar`.
-/

namespace FilterShell

variable {ts : List Token} {d : Document}

open Reading (Gives)

/-- No container in the value has been read; each is complete, with one end behind everything. -/
inductive Value.Unread (s : Store) : Value → Prop
  | null : Unread s .null
  | bool (b : Bool) : Unread s (.bool b)
  | number (id : Nat) (d : Decimal) : Unread s (.number id d)
  | string {id : Nat} {pieces : List Text} (hid : s.get id = {}) : Unread s (.string id pieces)
  | array {id : Nat} {items : List Value} (hid : s.get id = {}) (hitems : ∀ v ∈ items, Unread s v) :
      Unread s (.array id items)
  | object {id : Nat} {pairs : List (Value × Value)} (hid : s.get id = {})
      (hkeys : ∀ p ∈ pairs, Unread s p.1) (hvalues : ∀ p ∈ pairs, Unread s p.2) :
      Unread s (.object id pairs)

variable {start s : Store} {home : Nat → Value}

section Made

variable (hs : Grown start home s) (hunread : ∀ i, start.next ≤ i → start.get i = {})

include hs hunread

/-- Containers that were made are unread. -/
theorem Grown.get_eq {i : Nat} (hi : home i ≠ .null) : s.get i = {} := by
  rw [← hunread i (hs.fresh i hi).1, Store.get, hs.progress]
  rfl

/-- A store that has only grown is ready for what was made. -/
theorem Grown.ready : Ready home s := by
  intro i
  by_cases hi : home i = .null
  · rw [hi]
    trivial
  · rw [hs.get_eq hunread hi]
    cases home i with
    | string | array | object => exact .inl rfl
    | exception | null | bool | number => trivial

/-- What was made and not read is unread. -/
theorem Value.Housed.unread {v : Value} (hv : v.Housed home) : v.Unread s := by
  have hget : ∀ {i : Nat} {v : Value}, home i = v → v.id? = some i → s.get i = {} :=
    fun hi hv => hs.get_eq hunread (hi ▸ Value.ne_null hv)
  induction hv with
  | null => exact .null
  | bool b => exact .bool b
  | number id d => exact .number id d
  | string hhome => exact .string (hget hhome rfl)
  | array hhome _ ih => exact .array (hget hhome rfl) ih
  | object hhome hkeys _ ih =>
    refine .object (hget hhome rfl) (fun p hp => ?_) ih
    obtain ⟨i, pieces, hkey, hi⟩ := hkeys p hp
    rw [hkey]
    exact .string (hget hi rfl)

end Made

namespace Json

variable {t : Token}

/-- No container in the document has been read. -/
def Document.Unread (s : Store) : Document → Prop
  | .value v => v.Unread s
  | _        => True

/-- What a document says comes of reading it to the end. -/
theorem Document.Housed.settle (hd : d.Housed home) (hs : Ready home s) :
    ∃ s', Gives s d.settle d.content s' := by
  cases d with
  | text w => exact ⟨s, rfl⟩
  | value v =>
    obtain ⟨s', hgives, -⟩ := Value.settleTo_reads hd.1 le_rfl s hs
    exact ⟨s', hgives⟩
  | textless => exact hd.elim

/-- A document that says a text is a text. -/
theorem Document.Housed.eq_text (hd : d.Housed home) {w : Text}
    (h : d.content = .text w) : d = .text w := by
  cases d with
  | text w' => exact congrArg Document.text (Datum.text.inj h)
  | value v =>
    cases v with
    | string => exact absurd rfl hd.2
    | exception | null | bool | number | array | object => cases h
  | textless => exact hd.elim

/-! ### Tokens that are never read -/

/-- A token that begins no value, and is no key, bracket, comma or colon, is not read, wherever it
stands. -/
theorem step_refused (hb : ∀ p, ∃ e, beginning p t = .error e)
    (hkind : t.kind ∉ [.string, .closeArray, .closeObject, .comma, .colon]) (p : Nat) (st : State)
    (s : Store) : ∃ e s', (stepToken p t st).run.run s = (.error e, s') := by
  simp only [List.mem_cons, List.not_mem_nil, or_false, not_or] at hkind
  obtain ⟨hstring, harray, hobject, hcomma, hcolon⟩ := hkind
  obtain ⟨e, hb⟩ := hb p
  cases st with
  | done d =>
    rw [stepToken, hb]
    exact ⟨_, s, rfl⟩
  | reading stage fs =>
    cases stage with
    | value =>
      rw [stepToken, hb]
      exact ⟨_, s, rfl⟩
    | firstItem =>
      rw [stepToken, if_neg harray, hb]
      exact ⟨_, s, rfl⟩
    | firstKey =>
      rw [stepToken, if_neg hobject, if_neg hstring]
      exact ⟨_, s, rfl⟩
    | key =>
      rw [stepToken, if_neg hstring]
      exact ⟨_, s, rfl⟩
    | colon =>
      rw [stepToken, if_neg hcolon]
      exact ⟨_, s, rfl⟩
    | next =>
      rw [stepToken, stepNext.eq_def]
      split
      · rw [if_neg hobject, if_neg hcomma]
        exact ⟨_, s, rfl⟩
      · rw [if_neg harray, if_neg hcomma]
        exact ⟨_, s, rfl⟩

/-- Tokens that are read to the end are such that are not refused. -/
theorem readAll_forall {P : Token → Prop} {values : Bool}
    (hts : ∀ t ∈ ts, ¬ P t → ∀ p st s, ∃ e s', (stepToken p t st).run.run s = (.error e, s'))
    {st : State} {p : Nat} {s s' : Store}
    (hrun : (readAll values p st (ts.map .token)).run.run s = (.ok d, s')) : ∀ t ∈ ts, P t := by
  induction ts generalizing st p s with
  | nil => exact List.forall_mem_nil _
  | cons t ts ih =>
    obtain ⟨ht, hts⟩ := List.forall_mem_cons.1 hts
    rw [readAll_cons] at hrun
    rcases hone : (stepToken p t st).run.run s with ⟨e | st', s₁⟩
    · cases (bind_error hone).symm.trans hrun
    · refine List.forall_mem_cons.2 ⟨?_, ih hts ((bind_run hone).symm.trans hrun)⟩
      by_contra hnot
      obtain ⟨e, s₂, herror⟩ := ht hnot p st s
      cases hone.symm.trans herror

/-- A number that is too long is not read, wherever it stands. -/
theorem step_long (ht : t.Regular) (hlong : ¬ t.Fits) (p : Nat) (st : State) (s : Store) :
    ∃ e s', (stepToken p t st).run.run s = (.error e, s') := by
  have hnumber : ∃ w, t.kind = .number ∧ t.text = some w ∧
      ¬ Decimal.digits (Decimal.natOf w) ≤ 1000000000000000000 := by
    simpa only [Token.Fits, not_forall, exists_prop] using hlong
  obtain ⟨w, hkind, htext, hlong⟩ := hnumber
  refine step_refused (fun p => ⟨.fault (.arithmetic .invalidOperation), ?_⟩) (by simp [hkind]) p st s
  rw [beginning_number ht hkind htext, if_neg hlong]

/-- No number is too long in tokens that are read. -/
theorem readAll_fits {values : Bool} (hts : ∀ t ∈ ts, t.Regular) {st : State}
    {p : Nat} {s s' : Store}
    (hrun : (readAll values p st (ts.map .token)).run.run s = (.ok d, s')) : ∀ t ∈ ts, t.Fits :=
  readAll_forall (fun t ht hlong => step_long (hts t ht) hlong) hrun

/-! ### Documents -/

/-- The first state demands a value. -/
theorem demand_start (x : Datum) (ts : List Token) : Demand x Json.start ts ↔ IsValue ts x := by
  constructor
  · rintro ⟨us, y, vs, rfl, hvalue, rfl, rfl⟩
    rwa [List.append_nil]
  · exact fun hvalue => ⟨ts, x, [], (List.append_nil ts).symm, hvalue, rfl, rfl⟩

/-- Tokens that fit are read exactly if they are a document. -/
theorem document_ends (values : Bool)
    (hts : ∀ t ∈ ts, t.Regular ∧ t.Fits ∧ t.WellFormed) (s : Store) :
    Ends s s (document values (ts.map .token)) (IsDocument ts) := by
  obtain ⟨us, htrim, hsub, -, hvalue⟩ := withoutTrailing_tokens ts
  have hempty : Grown s (fun _ => .null) s := ⟨rfl, le_rfl, fun i hi => absurd rfl hi⟩
  have hdemand : ∀ x, IsDocument ts x ↔ Demand x Json.start us :=
    fun x => (hvalue x).trans (demand_start x us).symm
  rw [document, htrim]
  cases readAll_meets values (fun t ht => hts t (hsub ht)) hempty (.value .nil) 0 with
  | ok hrun hgrown hd hD => exact .ok hrun hgrown hd fun x => (hdemand x).trans (hD x)
  | error hrun hnone => exact .error hrun fun x h => hnone x ((hdemand x).1 h)

/-- **The tokens that are read are the documents of the grammar**, if all numbers fit.  In a store that
knows nothing yet of identities to come, what is made of a document says what the grammar says, and is
complete and unread; a string stays a text. -/
theorem document_grammar (values : Bool) (ts : List Token) (s : Store)
    (hscan : ∀ t ∈ ts, ∃ source, t ∈ (Token.scan source).tokens)
    (hwell : ∀ t ∈ ts, t.WellFormed) :
    ((∃ d s', (document values (ts.map .token)).run.run s = (.ok d, s')) ↔
      (∃ x, IsDocument ts x) ∧ ∀ t ∈ ts, t.Fits) ∧
    ((∀ i, s.next ≤ i → s.get i = {}) →
      ∀ d s' x, (document values (ts.map .token)).run.run s = (.ok d, s') → IsDocument ts x →
        (∃ s'', Gives s' d.settle x s'') ∧ d.Unread s' ∧ ∀ w, x = .text w → d = .text w) := by
  have hregular : ∀ t ∈ ts, t.Regular := by
    intro t ht
    obtain ⟨source, hsource⟩ := hscan t ht
    exact (Token.scan_regular source).1 t hsource
  obtain ⟨us, htrim, hsub, hall, hvalue⟩ := withoutTrailing_tokens ts
  rw [document, htrim]
  have hempty : Grown s (fun _ => .null) s := ⟨rfl, le_rfl, fun i hi => absurd rfl hi⟩
  have hends : (∀ t ∈ us, t.Fits) →
      Ends s s (readAll values 0 Json.start (us.map .token)) fun x => Demand x Json.start us := by
    intro hfits
    exact readAll_meets values (fun t ht => ⟨hregular t (hsub ht), hfits t ht, hwell t (hsub ht)⟩)
      hempty (.value .nil) 0
  have hfits : ∀ d s', (readAll values 0 Json.start (us.map .token)).run.run s = (.ok d, s') →
      ∀ t ∈ us, t.Fits :=
    fun d s' hrun => readAll_fits (fun t ht => hregular t (hsub ht)) hrun
  refine ⟨⟨?_, ?_⟩, ?_⟩
  · rintro ⟨d, s', hrun⟩
    cases hends (hfits d s' hrun) with
    | @ok d' _ _ _ _ _ hD =>
      refine ⟨⟨d'.content, (hvalue _).2 ((demand_start _ us).1 ((hD _).2 rfl))⟩, ?_⟩
      intro t ht w hkind
      exact hfits d s' hrun t (hall t ht (by simp [hkind])) w hkind
    | error hrun' _ => cases hrun.symm.trans hrun'
  · rintro ⟨⟨x, hx⟩, hall⟩
    cases hends fun t ht => hall t (hsub ht) with
    | ok hrun' _ _ _ => exact ⟨_, _, hrun'⟩
    | error _ hnone => exact absurd ((demand_start x us).2 ((hvalue x).1 hx)) (hnone x)
  · intro hunread d s' x hrun hx
    cases hends (hfits d s' hrun) with
    | ok hrun' hgrown hd hD =>
      cases hrun.symm.trans hrun'
      obtain rfl := (hD x).1 ((demand_start x us).2 ((hvalue x).1 hx))
      refine ⟨hd.settle (hgrown.ready hunread), ?_, fun w hw => hd.eq_text hw⟩
      cases d with
      | text | textless => trivial
      | value v => exact hd.1.unread hgrown hunread
    | error hrun' _ => cases hrun.symm.trans hrun'

/-- The theorem at an object that repeats a key, with white space behind it. -/
theorem document_grammar_repeated :
    let ts := (Token.scan "\x7b\"a\":1,\"a\":[null]\x7d ").tokens
    let x : Datum := .object [(.text "a", .list [.null])]
    (∀ t ∈ ts, ∃ source, t ∈ (Token.scan source).tokens) ∧ (∀ t ∈ ts, t.WellFormed) ∧
      IsDocument ts x ∧ ∃ d s', (document false (ts.map .token)).run.run {} = (.ok d, s') ∧
        (∃ s'', Gives s' d.settle x s'') ∧ d.Unread s' := by
  intro ts x
  have hscan : ∀ t ∈ ts, ∃ source, t ∈ (Token.scan source).tokens := fun t ht => ⟨_, ht⟩
  have hstring : ∀ t ∈ ts, t.kind = .string → t.text = some "a" := by decide +kernel
  have hnumber : ∀ t ∈ ts, t.kind = .number → t.text = some "1" := by decide +kernel
  have hwell : ∀ t ∈ ts, t.WellFormed := by
    intro t ht w hkind htext
    obtain rfl := Option.some.inj (htext.symm.trans (hstring t ht hkind))
    decide
  have hfits : ∀ t ∈ ts, t.Fits := by
    intro t ht w hkind htext
    obtain rfl := Option.some.inj (htext.symm.trans (hnumber t ht hkind))
    decide
  let token (kind : Token.Kind) (source : Text) (column : Nat) (text : Option Text) : Token :=
    { kind, source := some source, text, line := some 1, column := some column }
  -- the tokens as the grammar takes them apart
  have hts : ts = token .openObject "\x7b" 0 none ::
      ([token .string "\"a\"" 2 (some "a"), token .colon ":" 4 none,
          token .number "1" 5 (some "1")] ++ token .comma "," 6 none ::
        token .string "\"a\"" 8 (some "a") :: token .colon ":" 10 none ::
          token .openArray "[" 11 none :: ([token .name "null" 12 (some "null")] ++
          [token .closeArray "]" 16 none]) ++ [token .closeObject "\x7d" 17 none]) ++
      [{ kind := .trailingWhitespace, source := some " " }] := by
    decide +kernel
  have hdocument : IsDocument ts x := by
    refine .inr ⟨_, _, hts, rfl, ?_⟩
    have hfirst : IsMember [token .string "\"a\"" 2 (some "a"), token .colon ":" 4 none,
      token .number "1" 5 (some "1")] ("a", .number (.ofNat (Decimal.natOf "1"))) :=
      .mk rfl rfl rfl (.scalar (.number rfl rfl))
    have hsecond : IsMember (token .string "\"a\"" 8 (some "a") :: token .colon ":" 10 none ::
        token .openArray "[" 11 none :: ([token .name "null" 12 (some "null")] ++
          [token .closeArray "]" 16 none])) ("a", .list [.null]) :=
      .mk rfl rfl rfl (.array rfl (.parts (.one (.scalar (.null rfl rfl))) rfl))
    exact .object rfl (.parts (.more hfirst rfl (.one hsecond)) rfl)
  have hgrammar := document_grammar false ts {} hscan hwell
  obtain ⟨d, s', hrun⟩ := hgrammar.1.2 ⟨⟨x, hdocument⟩, hfits⟩
  obtain ⟨hsettle, hunread, -⟩ := hgrammar.2 (fun i _ => rfl) d s' x hrun hdocument
  exact ⟨hscan, hwell, hdocument, d, s', hrun, hsettle, hunread⟩

end Json

end FilterShell
