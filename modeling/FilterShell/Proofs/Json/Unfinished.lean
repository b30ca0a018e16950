import FilterShell.Proofs.Json.Faults

/-!
# Unfinished documents

Some errors say that the tokens ended too early.  As long as the document is not complete there is a text that
closes what is open (`remainder`), and its tokens are read to the end.  So these errors come of unfinished
documents, and of nothing else (`document_incomplete`).  The same text behind a source completes the source:
no token changes by what comes next (`Token.scan_append`).
-/

namespace FilterShell

variable {more : List Token}

namespace Token

/-! ### Sources that go on -/

/-- The token stays as it is, whatever stands behind it besides letters and digits. -/
def Settled (t : Token) : Prop :=
  t.kind ∉ [.comment, .illegal, .stringIncomplete, .stringStart, .trailingWhitespace]

/-- A string that ends does not see what is behind it. -/
theorem scanBody_append {t : Text} (h : (scanBody t).stop = .quote) (more : Text) :
    scanBody (t ++ more) = { scanBody t with rest := (scanBody t).rest ++ more } := by
  fun_induction scanBody t with
  | case1 | case3 | case5 | case6 | case8 | case9 | case10 => cases h
  | case2 rest => exact scanBody_quote (rest ++ more)
  | case4 e tail c he _ ih =>
    rw [List.cons_append, List.cons_append, scanBody_letter _ he, ih h]
    rfl
  | case7 n c h₁ h₂ h₃ h₄ tail hc _ _ hn ih =>
    have hscan := scanBody_number (tail ++ more) hn hc
    rw [ih h] at hscan
    exact hscan
  | case11 r rest hquote hslash ih =>
    rw [List.cons_append, scanBody_plain _ hquote hslash, ih h]
    rfl

/-- A string that ends is one token. -/
theorem scanFrom_quote (lead : Text) (p : Position) {t : Text} (h : (scanBody t).stop = .quote) :
    scanFrom lead p [] (Rune.ofChar '"' :: t) =
      (scanFrom [] ((p.after (Rune.ofChar '"')).afterAll (scanBody t).literal) [] (scanBody t).rest).push
        (placed .string (lead ++ Rune.ofChar '"' :: (scanBody t).literal) (some (scanBody t).content)
          (p.after (Rune.ofChar '"'))) := by
  rw [scanFrom]
  simp [h, pieceKind]

theorem not_head_dropWhile {q : Rune → Bool} {t more : Text} (h : ∀ r ∈ more.head?, ¬ q r) :
    ∀ r ∈ (t.dropWhile q ++ more).head?, ¬ q r := by
  intro r hr
  cases hdrop : t.dropWhile q with
  | nil => exact h r (by simpa [hdrop] using hr)
  | cons c rest =>
    obtain rfl : c = r := by simpa [hdrop] using hr
    have hhead := List.head?_dropWhile_not q t
    simpa [hdrop] using hhead

theorem not_settled_piece {stop : Stop} (h : stop ≠ .quote) (source : Text) (text : Option Text)
    (p : Position) : ¬ (placed (pieceKind false stop) source text p).Settled := by
  cases stop with
  | quote => exact absurd rfl h
  | interpolation | sourceEnd | badNumber | badEscape | failed => simp [Settled, placed, pieceKind]

/-- **Settled tokens stay**: what is read behind them starts anew. -/
theorem scanFrom_append {more : Text} (hmore : Apart more) (lead : Text) (p : Position) {depths : List Nat}
    (source : Text) (hdepths : depths = []) (hts : ∀ t ∈ (scanFrom lead p depths source).tokens, t.Settled)
    (herror : (scanFrom lead p depths source).error = none) :
    ∃ next, scanFrom lead p [] (source ++ more) =
      (scanFrom [] next [] more).pushAll (scanFrom lead p depths source).tokens := by
  -- one token in front, and the rest by induction
  have hpush : ∀ {t : Token} {sc : Scanned} {lead p q source rest},
      (∃ next, scanFrom [] q [] (rest ++ more) = (scanFrom [] next [] more).pushAll sc.tokens) →
      scanFrom lead p [] (source ++ more) = (scanFrom [] q [] (rest ++ more)).push t →
      ∃ next, scanFrom lead p [] (source ++ more) = (scanFrom [] next [] more).pushAll (sc.push t).tokens := by
    rintro t sc lead p q source rest ⟨next, hrest⟩ hscan
    exact ⟨next, by rw [hscan, hrest]; rfl⟩
  fun_induction scanFrom lead p depths source with
  | case1 lead p depths hlead => exact ⟨p, by rw [List.isEmpty_iff.1 hlead]; rfl⟩
  | case2 => exact absurd (hts _ List.mem_cons_self) (by simp [Settled])
  | case3 lead p depths r rest closes hopen body start piece outer next hstop ih =>
    subst hdepths
    obtain rfl : r = Rune.ofChar '"' := by simpa [closes] using hopen
    have hbody := scanBody_append hstop more
    have hscan := scanFrom_quote lead p (t := rest ++ more) (by rw [hbody, hstop])
    have hpiece : piece = placed .string (lead ++ Rune.ofChar '"' :: body.literal) (some body.content)
        (p.after (Rune.ofChar '"')) := by
      simp only [piece, hstop]
      rfl
    rw [hbody, ← hpiece] at hscan
    exact hpush (ih rfl (List.forall_mem_cons.1 hts).2 herror) hscan
  | case4 lead p depths r rest closes hopen body start piece outer next hstop
  | case5 lead p depths r rest closes hopen body start piece outer next hstop
  | case6 lead p depths r rest closes hopen body start piece outer next hstop
  | case7 lead p depths r rest closes hopen body start piece outer next hstop =>
    have hcloses : closes = false := by simp [closes, hdepths]
    refine absurd (hts piece List.mem_cons_self) ?_
    simp only [piece, hcloses]
    exact not_settled_piece (by simp [hstop]) _ _ _
  | case8 => cases herror
  | case9 lead p depths r rest closes hopen hblank ih =>
    obtain ⟨next, hrest⟩ := ih hdepths hts herror
    exact ⟨next, by rw [List.cons_append, scanFrom_blank lead p hblank, hrest]⟩
  | case10 => exact absurd (hts _ List.mem_cons_self) (by simp [Settled, placed])
  | case11 lead p depths r rest closes hopen hblank hcomment hletter letters ih =>
    refine hpush (ih hdepths (List.forall_mem_cons.1 hts).2 herror) ?_
    have hletters : letters ≠ [] ∧ ∀ c ∈ letters, c.isLetter := takeWhile_regular hletter
    have hscan := scanFrom_name lead p hletters.1 hletters.2
      (not_head_dropWhile (t := r :: rest) fun c hc => (hmore c hc).1)
    rwa [← List.append_assoc, List.takeWhile_append_dropWhile] at hscan
  | case12 lead p depths r rest closes hopen hblank hcomment hletter hdigit digits ih =>
    refine hpush (ih hdepths (List.forall_mem_cons.1 hts).2 herror) ?_
    have hdigits : digits ≠ [] ∧ ∀ c ∈ digits, c.isDigit := takeWhile_regular hdigit
    have hscan := scanFrom_number lead p hdigits.1 hdigits.2
      (not_head_dropWhile (t := r :: rest) fun c hc => (hmore c hc).2)
    rwa [← List.append_assoc, List.takeWhile_append_dropWhile] at hscan
  | case13 lead p depths r rest closes hopen hblank hcomment hletter hdigit kind hkind ds ih =>
    subst hdepths
    exact hpush (ih rfl (List.forall_mem_cons.1 hts).2 herror) (scanFrom_symbol lead p hkind)
  | case14 => exact absurd (hts _ List.mem_cons_self) (by simp [Settled, placed])

/-- No token changes by what comes next. -/
theorem scan_append {source more : Text} {ts : List Token} (hmore : Apart more) (hascii : more.Ascii)
    (hscan : scan source = ⟨ts, none⟩) (hts : ∀ t ∈ ts, t.Settled) :
    ∃ next, scan (source ++ more) = (scanFrom [] next [] more).pushAll ts := by
  have happend : ∀ lead p rest, scanFrom lead p [] rest = ⟨ts, none⟩ →
      ∃ next, scanFrom lead p [] (rest ++ more) = (scanFrom [] next [] more).pushAll ts := by
    intro lead p rest h
    have hrest := scanFrom_append hmore lead p rest rfl (by rwa [h]) (by rw [h])
    rwa [h] at hrest
  cases source with
  | nil =>
    obtain rfl : [] = ts := by
      rw [scan, scanFrom] at hscan
      exact congrArg Scanned.tokens hscan
    exact ⟨{}, scan_ascii hascii⟩
  | cons r rest =>
    rw [scan] at hscan
    rw [List.cons_append, scan]
    split at hscan
    · next hmark =>
      rw [if_pos hmark]
      exact happend [r] {} rest hscan
    · next hmark =>
      rw [if_neg hmark]
      exact happend [] {} (r :: rest) hscan

end Token

namespace Json

variable {t : Token} {ts us : List Token} {s s' : Store} {st : State} {stage : Stage} {fs : List Frame}
  {p : Nat}

/-! ### What is read before the tokens end -/

/-- Comments, pieces of strings and white space are not read, wherever they stand. -/
theorem step_unsettled (h : ¬ t.Settled) (p : Nat) (st : State) (s : Store) :
    ∃ e s', (stepToken p t st).run.run s = (.error e, s') := by
  have hkind : t.kind ∈ [.comment, .illegal, .stringIncomplete, .stringStart, .trailingWhitespace] :=
    not_not.1 h
  simp only [List.mem_cons, List.not_mem_nil, or_false] at hkind
  rcases hkind with hkind | hkind | hkind | hkind | hkind <;>
    exact step_refused (fun p => ⟨_, by rw [beginning, hkind]⟩) (by simp [hkind]) p st s

/-- **Tokens that end too early** have been read, all of them, up to a state that awaits more. -/
theorem incomplete_reached (hts : ∀ t ∈ ts, t.Regular) (h : Reached us st) {e : Error}
    (hrun : (readAll false p st (ts.map .token)).run.run s = (.error e, s')) (he : e.isIncomplete) :
    (∃ stage fs, Reached (us ++ ts) (.reading stage fs)) ∧ ∀ t ∈ ts, t.Fits ∧ t.Settled := by
  induction ts generalizing us st p s with
  | nil =>
    rw [List.append_nil]
    refine ⟨?_, List.forall_mem_nil _⟩
    cases st with
    | done d => cases hrun
    | reading stage fs => exact ⟨stage, fs, h⟩
  | cons t ts ih =>
    obtain ⟨ht, hts⟩ := List.forall_mem_cons.1 hts
    rw [readAll_cons] at hrun
    cases step_comes h.behind ht p s with
    | @ok st' s₁ hstep hbehind hdemand hnot =>
      rw [bind_run hstep] at hrun
      obtain ⟨hreached, hall⟩ := ih hts (h.step hstep hbehind hdemand) hrun
      rw [List.append_assoc] at hreached
      refine ⟨hreached, List.forall_mem_cons.2 ⟨⟨?_, ?_⟩, hall⟩⟩
      · by_contra hlong
        obtain ⟨e', s₂, herror⟩ := step_long ht hlong p st s
        cases hstep.symm.trans herror
      · by_contra hunsettled
        obtain ⟨e', s₂, herror⟩ := step_unsettled hunsettled p st s
        cases hstep.symm.trans herror
    | illegal hstep hillegal =>
      cases (bind_error hstep).symm.trans hrun
      cases e <;> cases hillegal <;> cases he
    | fault hstep =>
      cases (bind_error hstep).symm.trans hrun
      cases he

/-! ### What completes it -/

/-- The bracket that closes a container. -/
def Frame.closer : Frame → Rune
  | .array _   => Rune.ofChar ']'
  | .object .. => Rune.ofChar '\x7d'

/-- The kind of that bracket. -/
def Frame.closing : Frame → Token.Kind
  | .array _   => .closeArray
  | .object .. => .closeObject

/-- A text that completes a document: where a value is awaited there is an empty array, and then all
containers are closed. -/
def remainder : Stage → List Frame → Text
  | .value, fs   => Text.ofString "[]" ++ fs.map Frame.closer
  | .key, fs     => Text.literal [] ++ (Text.ofString ":[]" ++ fs.map Frame.closer)
  | .colon _, fs => Text.ofString ":[]" ++ fs.map Frame.closer
  | _, fs        => fs.map Frame.closer

theorem symbol_closer (f : Frame) : Token.symbol? f.closer = some f.closing := by
  cases f with
  | array items => exact Token.symbol_closeArray
  | object pairs key => exact Token.symbol_closeObject

theorem closing_cons {f : Frame} (h : t.kind = f.closing) (hus : Closing fs us) :
    Closing (f :: fs) (t :: us) := by
  cases f with
  | array items => exact .inl ⟨h, hus⟩
  | object pairs key => exact .inl ⟨h, hus⟩

/-- The text is cut into tokens as asked, none of which is a number, or white space. -/
abbrev Completing (P : List Token → Prop) (u : Text) : Prop :=
  Token.Scans (fun _ => False) (fun w => w.isWellFormed) (fun ts => P ts ∧ Unspaced ts) u

theorem Completing.cons {P : List Token → Prop} {c : Rune} {k : Token.Kind} {u : Text}
    (hc : Token.symbol? c = some k) (h : Completing P u) :
    Completing (fun ts => ∃ t us, ts = t :: us ∧ t.kind = k ∧ P us) (c :: u) := by
  refine (Token.Scans.cons_symbol hc h).imp ?_
  rintro _ ⟨t, us, rfl, rfl, hP, hspace⟩
  have hkind := (Token.symbol_only hc).2.2.2.2.2.2.2.2
  exact ⟨⟨t, us, rfl, rfl, hP⟩, List.forall_mem_cons.2 ⟨hkind, hspace⟩⟩

/-- Containers are closed behind a symbol. -/
theorem completing_closers {c : Rune} {k : Token.Kind} (hc : Token.symbol? c = some k) (fs : List Frame) :
    Completing (fun ts => ∃ t us, ts = t :: us ∧ t.kind = k ∧ Closing fs us) (c :: fs.map Frame.closer) := by
  induction fs generalizing c k with
  | nil =>
    refine (Token.scans_symbol hc).imp ?_
    rintro _ ⟨t, rfl, rfl, -⟩
    have hkind := (Token.symbol_only hc).2.2.2.2.2.2.2.2
    exact ⟨⟨t, [], rfl, rfl, rfl⟩, List.forall_mem_singleton.2 hkind⟩
  | cons f fs ih =>
    refine (Completing.cons hc (ih (symbol_closer f))).imp ?_
    rintro _ ⟨⟨t, _, rfl, rfl, t', us, rfl, hkind, hus⟩, hspace⟩
    exact ⟨⟨t, _, rfl, rfl, closing_cons hkind hus⟩, hspace⟩

theorem completing_value (fs : List Frame) :
    Completing (Starts IsValue fun _ => Closing fs) (Text.ofString "[]" ++ fs.map Frame.closer) := by
  refine (Completing.cons Token.symbol_openArray (completing_closers Token.symbol_closeArray fs)).imp ?_
  rintro _ ⟨⟨o, _, rfl, ho, c, us, rfl, hc, hus⟩, hspace⟩
  exact ⟨⟨[o, c], _, us, rfl, .array ho (.empty hc), hus⟩, hspace⟩

theorem completing_colon (fs : List Frame) :
    Completing (Symbol .colon (Starts IsValue fun _ => Closing fs))
      (Text.ofString ":[]" ++ fs.map Frame.closer) := by
  refine (Completing.cons Token.symbol_colon (completing_value fs)).imp ?_
  rintro _ ⟨⟨t, us, rfl, ht, hus⟩, hspace⟩
  exact ⟨⟨ht, hus⟩, hspace⟩

/-- **The remainder completes the document.** -/
theorem Behind.completing (h : Behind us (.reading stage fs)) :
    Completing (Completes (.reading stage fs)) (remainder stage fs) := by
  cases h with
  | start | item | member => exact completing_value _
  | @firstItem us c fs =>
    refine (completing_closers Token.symbol_closeArray fs).imp ?_
    rintro _ ⟨⟨t, us, rfl, ht, hus⟩, hspace⟩
    exact ⟨starts_enclosed.2 (.inl ⟨ht, hus⟩), hspace⟩
  | @firstKey us fs =>
    refine (completing_closers Token.symbol_closeObject fs).imp ?_
    rintro _ ⟨⟨t, us, rfl, ht, hus⟩, hspace⟩
    exact ⟨starts_enclosed.2 (.inl ⟨ht, hus⟩), hspace⟩
  | @key us pairs key fs =>
    have hkey : Token.Scans (fun _ => False) (fun w => w.isWellFormed) _ (Text.literal []) :=
      Token.scans_literal (by simp) (by decide)
    refine (hkey.append (completing_colon (.object pairs key :: fs)) (by decide)).imp ?_
    rintro _ ⟨_, us, rfl, ⟨t, rfl, hkind, htext⟩, hus, hspace⟩
    refine ⟨?_, List.forall_mem_cons.2 ⟨by simp [hkind], hspace⟩⟩
    rw [List.singleton_append, Completes, starts_separated, starts_member]
    exact ⟨hkind, [], htext, hus⟩
  | colon => exact completing_colon _
  | @next us f fs =>
    refine (completing_closers (symbol_closer f) fs).imp ?_
    rintro _ ⟨⟨t, us, rfl, ht, hus⟩, hspace⟩
    exact ⟨closing_cons ht hus, hspace⟩

theorem mem_remainder {r : Rune} (h : r ∈ remainder stage fs) : r ∈ Text.ofString "[]\x7d:\"" := by
  have hclosers : fs.map Frame.closer ⊆ Text.ofString "[]\x7d:\"" := by
    intro r hr
    obtain ⟨f, -, rfl⟩ := List.mem_map.1 hr
    cases f with
    | array items => exact (by decide : Rune.ofChar ']' ∈ Text.ofString "[]\x7d:\"")
    | object pairs key => exact (by decide : Rune.ofChar '\x7d' ∈ Text.ofString "[]\x7d:\"")
  have hall : remainder stage fs ⊆ Text.ofString "[]\x7d:\"" := by
    cases stage with
    | value => exact List.append_subset.2 ⟨by decide, hclosers⟩
    | key => exact List.append_subset.2 ⟨by decide, List.append_subset.2 ⟨by decide, hclosers⟩⟩
    | colon k => exact List.append_subset.2 ⟨by decide, hclosers⟩
    | firstItem | firstKey | next => exact hclosers
  exact hall h

theorem remainder_apart (stage : Stage) (fs : List Frame) : Token.Apart (remainder stage fs) := by
  intro r hr
  have hall : ∀ r ∈ Text.ofString "[]\x7d:\"", ¬ r.isLetter ∧ ¬ r.isDigit := by decide
  exact hall r (mem_remainder (List.mem_of_mem_head? hr))

theorem remainder_ascii (stage : Stage) (fs : List Frame) : (remainder stage fs).Ascii := by
  have hall : ∀ r ∈ Text.ofString "[]\x7d:\"", r.code < 0x80 := by decide
  exact fun r hr => hall r (mem_remainder hr)

theorem Reached.accepted (h : Reached ts st)
    (hts : ∀ t ∈ ts ++ more, t.Regular ∧ t.Fits ∧ t.WellFormed) (hmore : Completes st more) :
    Accepted (ts ++ more) := by
  obtain ⟨x, hx⟩ := (h.demand more).2 hmore
  cases document_ends false hts {} with
  | ok hrun => exact ⟨{}, _, _, hrun⟩
  | error _ hnone => exact absurd (.inl hx) (hnone x)

/-! ### Documents -/

/-- The tokens end too early. -/
def Incomplete (values : Bool) (ts : List Token) (s : Store) : Prop :=
  ∃ e s', (document values (ts.map .token)).run.run s = (.error e, s') ∧ e.isIncomplete

/-- Whether values may stand among tokens does not matter if there are none. -/
theorem readAll_tokens (values : Bool) (p : Nat) (st : State) (ts : List Token) :
    readAll values p st (ts.map .token) = readAll false p st (ts.map .token) := by
  induction ts generalizing p st with
  | nil => rfl
  | cons t ts ih =>
    rw [readAll_cons, readAll_cons]
    exact bind_congr fun st' => ih (p + 1) st'

/-- **Tokens that end too early can be completed**, by tokens of a text that may stand anywhere. -/
theorem Incomplete.remainder (hts : ∀ t ∈ ts, t.Regular ∧ t.WellFormed) (hspace : Unspaced ts)
    (h : Incomplete false ts s) : (∀ t ∈ ts, t.Settled) ∧ ∃ rest : Text, Token.Apart rest ∧ rest.Ascii ∧
      ∀ p, ∃ more, Token.scanFrom [] p [] rest = ⟨more, none⟩ ∧ more ≠ [] ∧ Unspaced more ∧
        Accepted (ts ++ more) := by
  obtain ⟨e, s', hrun, he⟩ := h
  rw [document, withoutTrailing_unspaced hspace] at hrun
  obtain ⟨⟨stage, fs, hreached⟩, hall⟩ :=
    incomplete_reached (fun t ht => (hts t ht).1) reached_start hrun he
  rw [List.nil_append] at hreached
  refine ⟨fun t ht => (hall t ht).2, Json.remainder stage fs, remainder_apart stage fs,
    remainder_ascii stage fs, fun p => ?_⟩
  obtain ⟨more, ⟨hmore, hspace'⟩, hwords, hscan⟩ := hreached.behind.completing.scanFrom_eq p
  refine ⟨more, hscan, ?_, hspace', hreached.accepted (List.forall_mem_append.2 ⟨?_, ?_⟩) hmore⟩
  · rintro rfl
    obtain ⟨d, hd⟩ := hreached.behind.completes_nil hmore
    cases hd
  · exact fun t ht => ⟨(hts t ht).1, (hall t ht).1, (hts t ht).2⟩
  · intro t ht
    have hregular := (Token.scanFrom_regular [] p [] (Json.remainder stage fs)).1
    rw [hscan] at hregular
    exact ⟨hregular t ht, fun w hkind htext => ((hwords t ht).1 w hkind htext).elim, (hwords t ht).2⟩

/-- A part of what is read ends too early. -/
theorem incomplete_of_part {d : Document} (hspace : Unspaced ts) (hmore : more ≠ [])
    (hrun : (readAll false 0 start ((ts ++ more).map .token)).run.run s = (.ok d, s')) :
    Incomplete false ts s := by
  obtain ⟨e, s₁, he, hcut, -⟩ := readAll_cut hmore hrun
  refine ⟨e, s₁, ?_, he⟩
  rw [document, withoutTrailing_unspaced hspace]
  exact hcut

theorem incomplete_of_accepted (hspace : Unspaced ts) (hmore : more ≠ [])
    (hspace' : Unspaced more) (h : Accepted (ts ++ more)) (s : Store) : Incomplete false ts s := by
  obtain ⟨d, s', hrun⟩ := h.run (List.forall_mem_append.2 ⟨hspace, hspace'⟩) s
  exact incomplete_of_part hspace hmore hrun

/-- With white space at the end there are the same parts, and the documents themselves. -/
theorem Accepted.part (hspace : Unspaced ts) (hmore : more ≠ [])
    (h : Accepted (ts ++ more)) : (∃ s, Incomplete false ts s) ∨ Accepted ts := by
  obtain ⟨s, d, s', hrun⟩ := h
  obtain rfl | ⟨more, w, rfl⟩ := List.eq_nil_or_concat more
  · exact absurd rfl hmore
  rw [List.concat_eq_append, ← List.append_assoc, document] at hrun
  by_cases hw : w.kind = .trailingWhitespace
  · rw [withoutTrailing_concat hw] at hrun
    by_cases hempty : more = []
    · rw [hempty, List.append_nil, ← withoutTrailing_unspaced hspace] at hrun
      exact .inr ⟨s, d, s', hrun⟩
    · exact .inl ⟨s, incomplete_of_part hspace hempty hrun⟩
  · rw [withoutTrailing_eq_self hw, List.append_assoc] at hrun
    exact .inl ⟨s, incomplete_of_part hspace (by simp) hrun⟩

theorem Accepted.concat {w : Token} (hspace : Unspaced ts) (h : Accepted ts)
    (hw : w.kind = .trailingWhitespace) : Accepted (ts ++ [w]) := by
  obtain ⟨s, d, s', hrun⟩ := h
  refine ⟨s, d, s', ?_⟩
  rw [document, withoutTrailing_unspaced hspace] at hrun
  rw [document, withoutTrailing_concat hw]
  exact hrun

theorem incomplete_values (values : Bool) (hspace : Unspaced ts) (s : Store) :
    Incomplete values ts s ↔ Incomplete false ts s := by
  rw [Incomplete, Incomplete, document, document, withoutTrailing_unspaced hspace, readAll_tokens]

/-- **Tokens end too early exactly if they can be completed**, and the tokens of a source by the tokens of a
longer one.  White space that stands at the end of a source also stands behind documents that are complete. -/
theorem document_incomplete (values : Bool) (ts : List Token) (s : Store)
    (hscan : ∀ t ∈ ts, ∃ source, t ∈ (Token.scan source).tokens) (hspace : Unspaced ts)
    (hwell : ∀ t ∈ ts, t.WellFormed) :
    (Incomplete values ts s ↔ ∃ more, more ≠ [] ∧ Unspaced more ∧ Accepted (ts ++ more)) ∧
    (∀ source, Token.scan source = ⟨ts, none⟩ → (Incomplete values ts s ↔
      ∃ rest more, more ≠ [] ∧ Unspaced more ∧ Token.scan (source ++ rest) = ⟨ts ++ more, none⟩ ∧
        Accepted (ts ++ more))) ∧
    ((∃ more, more ≠ [] ∧ Accepted (ts ++ more)) ↔ Incomplete values ts s ∨ Accepted ts) := by
  rw [incomplete_values values hspace]
  have hts : ∀ t ∈ ts, t.Regular ∧ t.WellFormed := by
    intro t ht
    obtain ⟨source, hsource⟩ := hscan t ht
    exact ⟨(Token.scan_regular source).1 t hsource, hwell t ht⟩
  have hmore : ∀ {s}, Incomplete false ts s → ∃ more, more ≠ [] ∧ Unspaced more ∧ Accepted (ts ++ more) := by
    intro s h
    obtain ⟨-, rest, -, -, hrest⟩ := h.remainder hts hspace
    obtain ⟨more, -, hmore⟩ := hrest {}
    exact ⟨more, hmore⟩
  have hpart : ∀ {more}, more ≠ [] → Unspaced more → Accepted (ts ++ more) → Incomplete false ts s :=
    fun hne hspace' h => incomplete_of_accepted hspace hne hspace' h s
  refine ⟨⟨hmore, ?_⟩, fun source hsource => ⟨fun h => ?_, ?_⟩, ⟨?_, ?_⟩⟩
  · rintro ⟨more, hne, hspace', haccepted⟩
    exact hpart hne hspace' haccepted
  · obtain ⟨hsettled, rest, hapart, hascii, hrest⟩ := h.remainder hts hspace
    obtain ⟨next, happend⟩ := Token.scan_append hapart hascii hsource hsettled
    obtain ⟨more, hscan', hne, hspace', haccepted⟩ := hrest next
    rw [hscan'] at happend
    exact ⟨rest, more, hne, hspace', happend, haccepted⟩
  · rintro ⟨rest, more, hne, hspace', -, haccepted⟩
    exact hpart hne hspace' haccepted
  · rintro ⟨more, hne, haccepted⟩
    obtain ⟨s₁, h⟩ | haccepted := haccepted.part hspace hne
    · obtain ⟨more', hne', hspace', haccepted'⟩ := hmore h
      exact .inl (hpart hne' hspace' haccepted')
    · exact .inr haccepted
  · rintro (h | haccepted)
    · obtain ⟨more, hne, -, haccepted⟩ := hmore h
      exact ⟨more, hne, haccepted⟩
    · exact ⟨[{ kind := .trailingWhitespace }], List.cons_ne_nil _ _, haccepted.concat hspace rfl⟩

/-- The theorem at an object that ends behind the comma of an array in it. -/
theorem document_incomplete_comma :
    let source : Text := "\x7b\"a\":[1,"
    let ts := (Token.scan source).tokens
    Incomplete false ts {} ∧ ∃ rest more, more ≠ [] ∧
      Token.scan (source ++ rest) = ⟨ts ++ more, none⟩ ∧ Accepted (ts ++ more) := by
  intro source ts
  have hwell : ∀ t ∈ ts, t.WellFormed := by
    have hstring : ∀ t ∈ ts, t.kind = .string → t.text = some "a" := by decide +kernel
    intro t ht w hkind htext
    obtain rfl := Option.some.inj (htext.symm.trans (hstring t ht hkind))
    decide
  have haccepted : Accepted (ts ++ (Token.scan "2]\x7d").tokens) :=
    accepted_of_isOk (s := {}) (by decide +kernel)
  obtain ⟨hincomplete, hsource, -⟩ :=
    document_incomplete false ts {} (fun t ht => ⟨source, ht⟩) (by decide +kernel) hwell
  have h := hincomplete.2 ⟨_, by decide +kernel, by decide +kernel, haccepted⟩
  obtain ⟨rest, more, hne, -, hscan, haccepted⟩ := (hsource source (by decide +kernel)).1 h
  exact ⟨h, rest, more, hne, hscan, haccepted⟩

end Json

end FilterShell
