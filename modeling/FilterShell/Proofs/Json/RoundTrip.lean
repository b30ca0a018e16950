import FilterShell.Proofs.Json.Refused

/-!
# Values that are read back from their text

The text of a drained value is read back as a document that says the same exactly if there is JSON for all
that the value holds, within what the scanner takes (`text_read_back`).  The entries of objects then stand in
the order of their keys, since that is how they are written.
-/

namespace FilterShell

open Reading (Gives Answers)

namespace Json

variable {s s₁ s₂ : Store} {t : Text} {ts : List Token} {x y : Datum} {d : Document} {values : Bool}

/-- Reads the one document that a text is. -/
def documentOf (source : Text) : Parsing Document := do document false (← elements source)

/-- The text is read as a document, and reading that to the end gives the datum. -/
def ReadsAs (s : Store) (t : Text) (x : Datum) : Prop :=
  ∃ d s₁ s₂, (documentOf t).run.run s = (.ok d, s₁) ∧ Gives s₁ d.settle x s₂

theorem documentOf_ok (h : (documentOf t).run.run s = (.ok d, s₁)) :
    (document false ((Token.scan t).tokens.map .token)).run.run s = (.ok d, s₁) := by
  cases herror : (Token.scan t).error with
  | none =>
    rw [documentOf, elements, herror] at h
    exact h
  | some e =>
    rw [documentOf, elements, herror] at h
    cases h

theorem ReadsAs.unique (hx : ReadsAs s t x) (hy : ReadsAs s t y) : x = y := by
  obtain ⟨d, s₁, s₂, hread, hx⟩ := hx
  obtain ⟨d', s₁', s₂', hread', hy⟩ := hy
  cases hread.symm.trans hread'
  cases hx.symm.trans hy
  rfl

section Settled

variable (hunread : ∀ i, s.next ≤ i → s.get i = {})

include hunread

/-- A document says the texts of its own tokens, besides numbers, and has texts for keys. -/
theorem document_madeOf (hts : ∀ t ∈ ts, t.Regular)
    (hrun : (document values (ts.map .token)).run.run s = (.ok d, s₁)) (hx : Gives s₁ d.settle x s₂) :
    x.MadeOf (fun _ => True) fun w => ∃ t ∈ ts, t.text = some w := by
  obtain ⟨us, htrim, hsub, -, -⟩ := withoutTrailing_tokens ts
  rw [document, htrim] at hrun
  have hus : ∀ t ∈ us, t.Regular := fun t ht => hts t (hsub ht)
  rcases readAll_strings hus hrun with hwell | ⟨t, w, rfl, -, htext, rfl⟩
  · have hall : ∀ t ∈ us, t.Regular ∧ t.Fits ∧ t.WellFormed :=
      fun t ht => ⟨hus t ht, readAll_fits hus hrun t ht, hwell t ht⟩
    have hempty : Grown s (fun _ => .null) s := ⟨rfl, le_rfl, fun i hi => absurd rfl hi⟩
    cases readAll_meets values hall hempty (.value .nil) 0 with
    | ok hrun' hgrown hd hD =>
      cases hrun.symm.trans hrun'
      obtain ⟨s₃, hsettle⟩ := hd.settle (hgrown.ready hunread)
      cases hx.symm.trans hsettle
      have hvalue := (demand_start _ us).1 ((hD _).2 rfl)
      refine hvalue.madeOf.mono (fun _ h => h) ?_
      rintro w ⟨t, ht, hw⟩
      exact ⟨t, hsub ht, hw⟩
    | error hrun' _ => cases hrun.symm.trans hrun'
  · cases hx
    exact .text ⟨t, hsub List.mem_cons_self, htext⟩

/-- Tokens that fit are read as what they say. -/
theorem document_reads (values : Bool) (hts : ∀ t ∈ ts, t.Regular ∧ t.Fits ∧ t.WellFormed)
    (hx : IsDocument ts x) :
    ∃ d s₁ s₂, (document values (ts.map .token)).run.run s = (.ok d, s₁) ∧ Gives s₁ d.settle x s₂ := by
  cases document_ends values hts s with
  | ok hrun hgrown hd hD =>
    obtain rfl := (hD x).1 hx
    obtain ⟨s₂, hsettle⟩ := hd.settle (hgrown.ready hunread)
    exact ⟨_, _, s₂, hrun, hsettle⟩
  | error _ hnone => exact absurd hx (hnone x)

end Settled

/-- No token of a document is stray. -/
theorem document_stray (hrun : (document values (ts.map .token)).run.run s = (.ok d, s₁)) :
    ∀ t ∈ ts, ¬ t.Stray := by
  intro t ht hstray
  obtain ⟨us, htrim, -, hall, -⟩ := withoutTrailing_tokens ts
  rw [document, htrim] at hrun
  have hkind : t.kind ≠ .trailingWhitespace := by
    rcases hstray with hkind | hkind | ⟨hkind, -⟩ <;> simp [hkind]
  have hnone := readAll_forall (P := fun t => ¬ t.Stray)
    (fun t _ hstray => step_stray (not_not.1 hstray)) hrun
  exact hnone t (hall t ht hkind) hstray

end Json

namespace Datum

open Json (ReadsAs)

variable {s : Store} {t : Text} {x y : Datum} (hunread : ∀ i, s.next ≤ i → s.get i = {})

include hunread

/-- What is read back from the text of a datum. -/
theorem Rendered.readsAs (h : x.Rendered t) (hx : x.Readable) (hstorable : x.Storable) :
    ∃ y, ReadsAs s t y ∧ y.Same x ∧ y.Ordered := by
  have hmade := hx.storable hstorable
  obtain ⟨y, hsame, hordered, hscans⟩ := h.scans (fun _ hd => hd.1) (fun _ ht => ht.1) hmade
  obtain ⟨ts, hvalue, hwords, hscan⟩ := hscans.scan_eq (h.ascii hmade)
  have hts : ∀ t ∈ ts, t.Regular ∧ t.Fits ∧ t.WellFormed := by
    intro tok htok
    have hregular := (Token.scan_regular t).1 tok (by rwa [hscan])
    refine ⟨hregular, fun w hkind htext => ?_, fun w hkind htext => ((hwords tok htok).2 w hkind htext).2⟩
    have hbound : (Decimal.bounded? false (Decimal.natOf w) 0).isSome :=
      ((hwords tok htok).1 w hkind htext).2
    by_contra hlong
    rw [Decimal.bounded?_whole, if_neg hlong] at hbound
    cases hbound
  obtain ⟨d, s₁, s₂, hrun, hsettle⟩ := Json.document_reads hunread false hts (.inl hvalue)
  refine ⟨y, ⟨d, s₁, s₂, ?_, hsettle⟩, hsame, hordered⟩
  rw [Json.documentOf, Json.elements, hscan]
  exact hrun

/-- What is read back as the same has only what a document can say, with numbers that leave no stray
token. -/
theorem Rendered.readable (h : x.Rendered t) (hread : ReadsAs s t y) (hsame : y.Same x) : x.Readable := by
  obtain ⟨d, s₁, s₂, hrun, hsettle⟩ := hread
  have hrun := Json.documentOf_ok hrun
  have hmade := hsame.madeOf (Json.document_madeOf hunread (Token.scan_regular t).1 hrun hsettle)
  -- the text is in ASCII, so no text in it is wide
  have hascii := h.ascii hmade
  have hnarrow : x.MadeOf (fun _ => True) Text.Narrow := by
    refine hmade.mono (fun _ h => h) ?_
    rintro w ⟨tok, htok, htext⟩
    exact Token.scan_narrow hascii.narrow tok htok w htext
  refine (h.readable_or_spoils hnarrow).resolve_right fun hspoils => ?_
  obtain ⟨tok, htok, hstray⟩ := hspoils.scan hascii
  exact Json.document_stray hrun tok htok hstray

end Datum

/-- **Which values are read back from their text.**  A value is given whose ends have all been taken, at any
depth, and which has no not-a-number in it; the text is read in a store that knows nothing yet of identities
to come.  Writing and reading it to the end succeed and change nothing.  The text is read as the same datum,
up to the order of entries and to how equal numbers are given, exactly if every number is written by digits
alone, no character is above `0xFFFF`, every key is a text, and there are no exceptions.  All keys of what was
read then stand in increasing order. -/
theorem text_read_back {s : Store} {home : Nat → Value} {v : Value} (hv : v.Drained s home)
    (hstorable : v.Storable) (s₀ : Store) (hunread : ∀ i, s₀.next ≤ i → s₀.get i = {}) :
    ∃ t x, Answers s v.text t ∧ Answers s v.settle x ∧
      ((∃ y, Json.ReadsAs s₀ t y ∧ y.Same x) ↔ x.Readable) ∧
      ∀ y, Json.ReadsAs s₀ t y → y.Same x → y.Ordered := by
  obtain ⟨x, t, hrenders⟩ := hv.renders
  refine ⟨t, x, hrenders.writes _ le_rfl, hrenders.settles _ le_rfl, ⟨?_, fun hx => ?_⟩, ?_⟩
  · rintro ⟨y, hread, hsame⟩
    exact hrenders.rendered.readable hunread hread hsame
  · obtain ⟨y, hread, hsame, -⟩ :=
      hrenders.rendered.readsAs hunread hx (hrenders.storable hstorable)
    exact ⟨y, hread, hsame⟩
  · intro y hread hsame
    have hx := hrenders.rendered.readable hunread hread hsame
    obtain ⟨y', hread', -, hordered⟩ :=
      hrenders.rendered.readsAs hunread hx (hrenders.storable hstorable)
    rwa [hread.unique hread']

/-- An object that is read back with its keys in order, and an array that is not read back, for its one
number is written with a point. -/
theorem text_read_back_unsorted :
    let first : Value := .string 1 ["b"]
    let second : Value := .string 2 ["a"]
    let list : Value := .array 3 [.number 0 (.ofNat 12), second]
    let record : Value := .object 4 [(first, list), (second, .null)]
    let broken : Value := .array 5 [.number 0 (.finite false 15 (-1))]
    let home : Nat → Value := fun i =>
      if i = 1 then first else if i = 2 then second else if i = 3 then list else
      if i = 4 then record else broken
    let s : Store := { progress := [
      (1, { taken := 1, ended := true }), (2, { taken := 1, ended := true }),
      (3, { taken := 2, ended := true }),
      (4, { taken := 2, ended := true, entries := [⟨99, 0, 0⟩, ⟨98, 1, 1⟩] }),
      (5, { taken := 1, ended := true })] }
    (record.Drained s home ∧ record.Storable ∧
      ∃ t y, Answers s record.text t ∧ Json.ReadsAs {} t y ∧ y.Ordered) ∧
    (broken.Drained s home ∧ broken.Storable ∧
      ∃ t, Answers s broken.text t ∧ ∀ y, Json.ReadsAs {} t y →
        ¬ y.Same (.list [.number (.finite false 15 (-1))])) := by
  intro first second list record broken home s
  have hfirst : first.Drained s home := .string rfl rfl
  have hsecond : second.Drained s home := .string rfl rfl
  have hlist : list.Drained s home := by
    refine .array rfl rfl ?_
    rintro v (_ | ⟨_, _ | ⟨_, ⟨⟩⟩⟩)
    exacts [.number rfl, hsecond]
  have hrecord : record.Drained s home := by
    refine .object rfl rfl ?_ ?_ ?_ ?_
    · rintro e (_ | ⟨_, _ | ⟨_, ⟨⟩⟩⟩)
      · exact ⟨first, list, rfl, rfl⟩
      · exact ⟨second, .null, rfl, rfl⟩
    · rintro p (_ | ⟨_, _ | ⟨_, ⟨⟩⟩⟩)
      exacts [hfirst, hsecond]
    · rintro p (_ | ⟨_, _ | ⟨_, ⟨⟩⟩⟩)
      exacts [hlist, .null]
    · exact List.pairwise_pair.2 rfl
  have hbroken : broken.Drained s home := by
    refine .array rfl rfl ?_
    rintro v (_ | ⟨_, ⟨⟩⟩)
    exact .number rfl
  have hstorable : first.Storable ∧ second.Storable := by
    constructor <;> exact .string (by decide)
  have hrecord' : record.Storable := by
    refine .object ?_ ?_
    · rintro p (_ | ⟨_, _ | ⟨_, ⟨⟩⟩⟩)
      exacts [hstorable.1, hstorable.2]
    · rintro p (_ | ⟨_, _ | ⟨_, ⟨⟩⟩⟩)
      · refine .array ?_
        rintro v (_ | ⟨_, _ | ⟨_, ⟨⟩⟩⟩)
        exacts [.number rfl, hstorable.2]
      · exact .null
  have hbroken' : broken.Storable := by
    refine .array ?_
    rintro v (_ | ⟨_, ⟨⟩⟩)
    exact .number rfl
  refine ⟨⟨hrecord, hrecord', ?_⟩, hbroken, hbroken', ?_⟩
  · obtain ⟨t, x, htext, hsettle, hiff, hordered⟩ :=
      text_read_back hrecord hrecord' {} fun i _ => rfl
    have hx : Answers s record.settle (.object [(.text "b", .list [.number (.ofNat 12), .text "a"]),
      (.text "a", .null)]) := rfl
    obtain rfl := hsettle.unique hx
    have hnarrow : Text.Narrow "a" ∧ Text.Narrow "b" := by
      unfold Text.Narrow
      decide
    have hreadable : Datum.Readable (.object [(.text "b", .list [.number (.ofNat 12), .text "a"]),
        (.text "a", .null)]) := by
      refine .object ?_ ?_
      · rintro e (_ | ⟨_, _ | ⟨_, ⟨⟩⟩⟩)
        exacts [⟨"b", rfl, hnarrow.2⟩, ⟨"a", rfl, hnarrow.1⟩]
      · rintro e (_ | ⟨_, _ | ⟨_, ⟨⟩⟩⟩)
        · refine .list ?_
          rintro x (_ | ⟨_, _ | ⟨_, ⟨⟩⟩⟩)
          exacts [.number (by decide), .text hnarrow.1]
        · exact .null
    obtain ⟨y, hread, hsame⟩ := hiff.2 hreadable
    exact ⟨t, y, htext, hread, hordered y hread hsame⟩
  · obtain ⟨t, x, htext, hsettle, hiff, -⟩ := text_read_back hbroken hbroken' {} fun i _ => rfl
    have hx : Answers s broken.settle (.list [.number (.finite false 15 (-1))]) := rfl
    obtain rfl := hsettle.unique hx
    refine ⟨t, htext, fun y hread hsame => ?_⟩
    cases hiff.1 ⟨y, hread, hsame⟩ with
    | list hitems =>
      cases hitems _ List.mem_cons_self with
      | number hdigits => exact absurd hdigits (by decide)

end FilterShell
