import FilterShell.Proofs.Token.Literal
import Mathlib.Data.List.Infix

/-!
# The grammar of string literals

    literal ::=  " item* "
    item    ::=  any character besides " and \
              |  \" | \/ | \\ | \b | \f | \n | \r | \t
              |  \u hex hex hex hex

The scanner goes along (`scanBody_content`).  It leaves the grammar where it reads four characters behind `\u`
as a number although they are no digits, such as `+041`, and where the source ends within an escape; everywhere
else strings are recognised as the grammar says (`recognised_iff`).
-/

namespace FilterShell

variable {e : Rune}

namespace Token

/-- What may stand behind a backslash besides a number, and what it stands for. -/
def letters : List (Char × Char) :=
  [('"', '"'), ('/', '/'), ('\\', '\\'), ('b', '\x08'), ('f', '\x0c'), ('n', '\n'), ('r', '\r'), ('t', '\t')]

/-- An item of a string, and the character that it stands for. -/
inductive IsItem : Text → Rune → Prop
  | plain {r : Rune} (hquote : r ≠ Rune.ofChar '"') (hslash : r ≠ Rune.ofChar '\\') : IsItem [r] r
  | letter {e c : Char} (h : (e, c) ∈ letters) : IsItem [Rune.ofChar '\\', Rune.ofChar e] (Rune.ofChar c)
  | number {t : Text} {r : Rune} (h : t.code? = some r.code) :
      IsItem (Rune.ofChar '\\' :: Rune.ofChar 'u' :: t) r

/-- Items one after the other, and the text that they stand for. -/
inductive IsContent : Text → Text → Prop
  | nil : IsContent [] []
  | cons {item u : Text} {r : Rune} {w : Text} (h : IsItem item r) (hu : IsContent u w) :
      IsContent (item ++ u) (r :: w)

/-- Items between quotes, and the text that they stand for. -/
def IsLiteral (q w : Text) : Prop :=
  ∃ u, q = Rune.ofChar '"' :: (u ++ [Rune.ofChar '"']) ∧ IsContent u w

/-- A backslash in front of the text starts neither an item nor a program. -/
def Broken (t : Text) : Prop :=
  (∀ item r, IsItem item r → ¬ item <+: Rune.ofChar '\\' :: t) ∧ t.head? ≠ some (Rune.ofChar '(')

/-- The text ends at once, or it has a number behind `u`, in any spelling. -/
def Loose (t : Text) : Prop :=
  t = [] ∨ ∃ tail, t = Rune.ofChar 'u' :: tail ∧ (Text.readInt? 16 (tail.take 4)).isSome

/-- The text does not go on with an item: it is empty, or in front there is a quote, or a backslash that
starts a program or nothing. -/
inductive NoItem : Text → Prop
  | nil : NoItem []
  | quote (more : Text) : NoItem (Rune.ofChar '"' :: more)
  | program (more : Text) : NoItem (Rune.ofChar '\\' :: Rune.ofChar '(' :: more)
  | broken {more : Text} (h : Broken more) : NoItem (Rune.ofChar '\\' :: more)

/-! ### Items -/

theorem escape?_letter : ∀ p ∈ letters, escape? (Rune.ofChar p.1) = some (Rune.ofChar p.2) := by decide

theorem isItem_escape? {c : Rune} (h : escape? e = some c) : IsItem [Rune.ofChar '\\', e] c := by
  unfold escape? at h
  split_ifs at h with hself hb hf hn hr ht
  · cases h
    simp only [Bool.or_eq_true, decide_eq_true_eq] at hself
    rcases hself with (rfl | rfl) | rfl <;> exact .letter (by decide)
  · cases h
    exact hb ▸ .letter (by decide)
  · cases h
    exact hf ▸ .letter (by decide)
  · cases h
    exact hn ▸ .letter (by decide)
  · cases h
    exact hr ▸ .letter (by decide)
  · cases h
    exact ht ▸ .letter (by decide)

/-- An item is read as what it stands for. -/
theorem scanBody_item {item : Text} {r : Rune} (h : IsItem item r) (rest : Text) :
    scanBody (item ++ rest) = (scanBody rest).push item [r] := by
  cases h with
  | plain hquote hslash => exact scanBody_plain rest hquote hslash
  | letter h => exact scanBody_letter rest (escape?_letter _ h)
  | number h =>
    have hread := Text.readInt?_code h
    obtain ⟨h₁, h₂, h₃, h₄, -, -, -, -, rfl, -⟩ := Text.code?_eq_some h
    exact scanBody_number rest hread (by simp [Rune.ofNat?, r.lt_bound])

theorem push_push (l₁ l₂ c₁ c₂ : Text) (b : Body) :
    (b.push l₂ c₂).push l₁ c₁ = b.push (l₁ ++ l₂) (c₁ ++ c₂) := by
  simp [Body.push]

theorem scanBody_content {u w : Text} (h : IsContent u w) (rest : Text) :
    scanBody (u ++ rest) = (scanBody rest).push u w := by
  induction h with
  | nil => rfl
  | cons h _ ih => rw [List.append_assoc, scanBody_item h, ih, push_push, List.singleton_append]

/-- **A text is items, and then something that is none.** -/
theorem exists_content (t : Text) : ∃ u w rest, t = u ++ rest ∧ IsContent u w ∧ NoItem rest := by
  induction hn : t.length using Nat.strong_induction_on generalizing t with
  | _ n ih =>
    subst hn
    -- an item in front goes to the items of the rest, which is shorter
    have hitem : ∀ item r rest, IsItem item r → t = item ++ rest →
        ∃ u w rest, t = u ++ rest ∧ IsContent u w ∧ NoItem rest := by
      intro item r rest h ht
      have hshort : rest.length < t.length := by
        rw [ht, List.length_append]
        cases h <;> simp
      obtain ⟨u, w, rest', rfl, hu, hrest⟩ := ih rest.length hshort rest rfl
      exact ⟨item ++ u, r :: w, rest', by rw [ht, List.append_assoc], .cons h hu, hrest⟩
    rcases t with _ | ⟨r, rest⟩
    · exact ⟨[], [], [], rfl, .nil, .nil⟩
    by_cases hquote : r = Rune.ofChar '"'
    · exact ⟨[], [], r :: rest, rfl, .nil, hquote ▸ .quote rest⟩
    by_cases hslash : r = Rune.ofChar '\\'
    · subst hslash
      by_cases hstarts : ∃ item c, IsItem item c ∧ item <+: Rune.ofChar '\\' :: rest
      · obtain ⟨item, c, h, more, hmore⟩ := hstarts
        exact hitem item c more h hmore.symm
      by_cases hparen : rest.head? = some (Rune.ofChar '(')
      · obtain ⟨more, rfl⟩ := List.head?_eq_some_iff.1 hparen
        exact ⟨[], [], _, rfl, .nil, .program more⟩
      · have hbroken : Broken rest := ⟨fun item c h hpre => hstarts ⟨item, c, h, hpre⟩, hparen⟩
        exact ⟨[], [], _, rfl, .nil, .broken hbroken⟩
    · exact hitem [r] r rest (.plain hquote hslash) rfl

/-! ### What is no item -/

theorem scanBody_program (more : Text) :
    scanBody (Rune.ofChar '\\' :: Rune.ofChar '(' :: more) =
      ⟨[Rune.ofChar '\\', Rune.ofChar '('], [], .interpolation, more⟩ := by
  have hslash : Rune.ofChar '\\' ≠ Rune.ofChar '"' := by decide
  have hletter : escape? (Rune.ofChar '(') = none := by decide
  have hu : Rune.ofChar '(' ≠ Rune.ofChar 'u' := by decide
  rw [scanBody.eq_def]
  simp [hslash, hletter, hu]

/-- What stands behind a backslash that starts no item: no letter, and no four digits behind `u`. -/
theorem Broken.escape? {tail : Text} (h : Broken (e :: tail)) : escape? e = none := by
  cases he : Token.escape? e with
  | none => rfl
  | some c => exact absurd (List.prefix_append _ tail) (h.1 _ _ (isItem_escape? he))

theorem Broken.ne_paren {tail : Text} (h : Broken (e :: tail)) : e ≠ Rune.ofChar '(' := by
  rintro rfl
  exact h.2 rfl

/-- A broken escape ends the content. -/
theorem scanBody_broken {t : Text} (h : Broken t) (hloose : ¬ Loose t) :
    ∃ stop, scanBody (Rune.ofChar '\\' :: t) = ⟨[], [], stop, t⟩ ∧
      (stop = .badNumber ∨ stop = .badEscape) := by
  have hslash : Rune.ofChar '\\' ≠ Rune.ofChar '"' := by decide
  rcases t with _ | ⟨e, tail⟩
  · exact absurd (.inl rfl) hloose
  rw [scanBody.eq_def]
  by_cases hu : e = Rune.ofChar 'u'
  · subst hu
    have hnone : Text.readInt? 16 (tail.take 4) = none := by
      by_contra hsome
      exact hloose (.inr ⟨tail, rfl, Option.isSome_iff_ne_none.2 hsome⟩)
    exact ⟨.badNumber, by simp [hslash, h.escape?, hnone], .inl rfl⟩
  · exact ⟨.badEscape, by simp [hslash, h.escape?, hu, h.ne_paren], .inr rfl⟩

/-- A loose escape breaks the scan, or more than the items before it is read. -/
theorem scanBody_loose {t : Text} (h : Broken t) (hloose : Loose t) :
    (∃ e, (scanBody (Rune.ofChar '\\' :: t)).stop = .failed e) ∨
      (scanBody (Rune.ofChar '\\' :: t)).literal ≠ [] := by
  have hslash : Rune.ofChar '\\' ≠ Rune.ofChar '"' := by decide
  rcases hloose with rfl | ⟨tail, rfl, hsome⟩
  · exact .inl ⟨.cutEscape, by rw [scanBody.eq_def]; simp [hslash]⟩
  obtain ⟨n, hn⟩ := Option.isSome_iff_exists.1 hsome
  rw [scanBody.eq_def]
  simp only [hslash, if_false, if_true, h.escape?, hn]
  split
  · exact .inl ⟨_, rfl⟩
  · exact .inr (by simp [Body.push])
  · exact .inl ⟨_, rfl⟩

/-! ### The first token -/

section First

variable {rest : Text}

theorem scan_quote (rest : Text) :
    scan (Rune.ofChar '"' :: rest) = scanFrom [] {} [] (Rune.ofChar '"' :: rest) := by
  have hmark : Rune.ofChar '"' ≠ byteOrderMark := by decide
  rw [scan, if_neg hmark]

theorem scan_failed {e : ScanError} (h : (scanBody rest).stop = .failed e) :
    scan (Rune.ofChar '"' :: rest) = ⟨[], some e⟩ := by
  rw [scan_quote, scanFrom]
  simp [h]

/-- The first token is the piece of a string, unless the scan fails in it. -/
theorem scan_piece (h : ∀ e, (scanBody rest).stop ≠ .failed e) : ∃ p ts,
    (scan (Rune.ofChar '"' :: rest)).tokens = placed (pieceKind false (scanBody rest).stop)
      (Rune.ofChar '"' :: (scanBody rest).literal) (some (scanBody rest).content) p :: ts := by
  rw [scan_quote, scanFrom]
  cases hstop : (scanBody rest).stop with
  | failed e => exact absurd hstop (h e)
  | _ =>
    simp only [decide_true, List.head?_nil, reduceCtorEq, decide_false, Bool.and_false, Bool.or_false,
      ↓reduceIte, hstop, List.nil_append, Bool.false_eq_true]
    exact ⟨_, _, rfl⟩

/-- Behind a backslash that is refused, the rest of the source is one token. -/
theorem scan_refused (h : (scanBody rest).stop = .badNumber ∨ (scanBody rest).stop = .badEscape) :
    ∃ piece escape, scan (Rune.ofChar '"' :: rest) = ⟨[piece, escape], none⟩ ∧
      piece.source = some (Rune.ofChar '"' :: (scanBody rest).literal) ∧ escape.kind = .illegal := by
  rw [scan_quote, scanFrom]
  rcases h with hstop | hstop
  all_goals
    simp only [decide_true, List.head?_nil, reduceCtorEq, decide_false, Bool.and_false, Bool.or_false,
      ↓reduceIte, hstop, List.nil_append, Bool.false_eq_true]
    exact ⟨_, _, rfl, rfl, rfl⟩

end First

/-! ### Recognised strings -/

/-- The source is cut into tokens, and the first is a string with this piece of source and this text. -/
def StartsString (s q w : Text) : Prop :=
  (scan s).error = none ∧ ∃ t ts, (scan s).tokens = t :: ts ∧ t.kind = .string ∧ t.source = some q ∧
    t.text = some w

/-- **Strings are recognised as the grammar says**: the first token is a string exactly if the source begins
with a literal, and it is this literal; and a backslash that starts neither an item nor a program ends the
tokens with an illegal one. -/
structure Recognised (s : Text) : Prop where
  literal : ∀ q w, StartsString s q w ↔ q <+: s ∧ IsLiteral q w
  backslash : ∀ u w rest, s = Rune.ofChar '"' :: (u ++ Rune.ofChar '\\' :: rest) → IsContent u w →
    Broken rest → ∃ piece escape, scan s = ⟨[piece, escape], none⟩ ∧
      piece.source = some (Rune.ofChar '"' :: u) ∧ escape.kind = .illegal

section Recognised

variable {u w q rest more : Text}

/-- Items and a quote are the first token, if nothing fails behind them. -/
theorem startsString_of_literal (hq : q <+: Rune.ofChar '"' :: rest) (h : IsLiteral q w)
    (herror : (scan (Rune.ofChar '"' :: rest)).error = none) :
    StartsString (Rune.ofChar '"' :: rest) q w := by
  obtain ⟨u, rfl, hu⟩ := h
  obtain ⟨more, hmore⟩ := hq
  obtain rfl : u ++ Rune.ofChar '"' :: more = rest := by simpa using hmore
  have hbody : scanBody (u ++ Rune.ofChar '"' :: more) =
      ⟨u ++ [Rune.ofChar '"'], w, .quote, more⟩ := by
    rw [scanBody_content hu, scanBody_quote]
    simp [Body.push]
  have hfails : ∀ e, (scanBody (u ++ Rune.ofChar '"' :: more)).stop ≠ .failed e := by simp [hbody]
  obtain ⟨p, ts, hts⟩ := scan_piece hfails
  rw [hbody] at hts
  exact ⟨herror, _, ts, hts, rfl, rfl, rfl⟩

/-- A string that is the first token is a literal, unless there is a loose escape in it. -/
theorem literal_of_startsString (h : StartsString (Rune.ofChar '"' :: rest) q w)
    (hloose : ∀ u w bad, rest = u ++ Rune.ofChar '\\' :: bad → IsContent u w → Broken bad → ¬ Loose bad) :
    q <+: Rune.ofChar '"' :: rest ∧ IsLiteral q w := by
  obtain ⟨herror, t, ts, hts, hkind, hsource, htext⟩ := h
  have hfails : ∀ e, (scanBody rest).stop ≠ .failed e := by
    intro e he
    rw [scan_failed he] at herror
    cases herror
  obtain ⟨p, ts', hts'⟩ := scan_piece hfails
  obtain ⟨rfl, -⟩ := List.cons.inj (hts.symm.trans hts')
  obtain ⟨u, w', rest', rfl, hu, hrest⟩ := exists_content rest
  rw [scanBody_content hu] at hkind hsource htext
  cases hrest with
  | nil => cases hkind
  | quote more =>
    rw [scanBody_quote] at hsource htext
    obtain rfl : Rune.ofChar '"' :: (u ++ [Rune.ofChar '"']) = q := Option.some.inj hsource
    obtain rfl : w' ++ [] = w := Option.some.inj htext
    rw [List.append_nil]
    exact ⟨⟨more, by simp⟩, u, rfl, hu⟩
  | program more =>
    rw [scanBody_program] at hkind
    cases hkind
  | @broken bad hbroken =>
    obtain ⟨stop, hbody, hstop⟩ := scanBody_broken hbroken (hloose u w' bad rfl hu hbroken)
    rw [hbody] at hkind
    rcases hstop with rfl | rfl <;> cases hkind

/-- A backslash that starts nothing is refused, unless it is loose. -/
theorem scan_backslash (hu : IsContent u w) (h : Broken more) (hloose : ¬ Loose more) :
    ∃ piece escape, scan (Rune.ofChar '"' :: (u ++ Rune.ofChar '\\' :: more)) = ⟨[piece, escape], none⟩ ∧
      piece.source = some (Rune.ofChar '"' :: u) ∧ escape.kind = .illegal := by
  obtain ⟨stop, hbody, hstop⟩ := scanBody_broken h hloose
  have hall : scanBody (u ++ Rune.ofChar '\\' :: more) = ⟨u, w, stop, more⟩ := by
    rw [scanBody_content hu, hbody]
    simp [Body.push]
  have hstops : (scanBody (u ++ Rune.ofChar '\\' :: more)).stop = stop := congrArg Body.stop hall
  have hrefused := scan_refused (hstops ▸ hstop)
  rwa [hall] at hrefused

/-- A loose escape is not refused. -/
theorem not_scan_loose (hu : IsContent u w) (h : Broken more) (hloose : Loose more) {piece escape : Token}
    (hscan : scan (Rune.ofChar '"' :: (u ++ Rune.ofChar '\\' :: more)) = ⟨[piece, escape], none⟩) :
    piece.source ≠ some (Rune.ofChar '"' :: u) := by
  have hbody := scanBody_content hu (Rune.ofChar '\\' :: more)
  have hfails : ∀ e, (scanBody (u ++ Rune.ofChar '\\' :: more)).stop ≠ .failed e := by
    intro e he
    rw [scan_failed he] at hscan
    cases hscan
  obtain ⟨p, ts, hts⟩ := scan_piece hfails
  rw [hscan, hbody] at hts
  obtain ⟨rfl, -⟩ := List.cons.inj hts
  rcases scanBody_loose h hloose with ⟨e, he⟩ | hmore
  · rw [hbody] at hfails
    exact absurd he (hfails e)
  · intro hsource
    have hliteral : Rune.ofChar '"' :: (u ++ (scanBody (Rune.ofChar '\\' :: more)).literal) =
        Rune.ofChar '"' :: u := Option.some.inj hsource
    exact hmore (by simpa using hliteral)

end Recognised

/-- **Where strings are recognised as the grammar says**: exactly where no backslash that starts nothing is
loose, and nothing fails behind a literal. -/
theorem recognised_iff (rest : Text) : Recognised (Rune.ofChar '"' :: rest) ↔
    (∀ u w bad, rest = u ++ Rune.ofChar '\\' :: bad → IsContent u w → Broken bad → ¬ Loose bad) ∧
      ((∃ q w, q <+: Rune.ofChar '"' :: rest ∧ IsLiteral q w) →
        (scan (Rune.ofChar '"' :: rest)).error = none) := by
  constructor
  · intro h
    refine ⟨?_, ?_⟩
    · rintro u w bad rfl hu hbroken hloose
      obtain ⟨piece, escape, hscan, hsource, -⟩ := h.backslash u w bad rfl hu hbroken
      exact not_scan_loose hu hbroken hloose hscan hsource
    · rintro ⟨q, w, hq⟩
      exact ((h.literal q w).2 hq).1
  · rintro ⟨hloose, herror⟩
    refine ⟨fun q w => ⟨fun h => literal_of_startsString h hloose, fun hq => ?_⟩, ?_⟩
    · exact startsString_of_literal hq.1 hq.2 (herror ⟨q, w, hq⟩)
    · intro u w bad hs hu hbroken
      obtain rfl := (List.cons.inj hs).2
      exact scan_backslash hu hbroken (hloose u w bad rfl hu hbroken)

theorem broken_nil : Broken [] := by
  refine ⟨fun item r h hprefix => ?_, by simp⟩
  have hlength := hprefix.length_le
  cases h with
  | plain hquote hslash => exact hslash (List.cons_prefix_cons.1 hprefix).1
  | letter h => simp at hlength
  | number h => simp at hlength

/-- The grammar is left where a source ends with a backslash; four characters that are no digits are taken for
a number, and other numbers cannot be cut into tokens at all. -/
theorem not_recognised_slash : ¬ Recognised ("\"\\" : String) ∧
    StartsString ("\"\\u+041\"" : String) ("\"\\u+041\"" : String) ("A" : String) ∧
    scan "\"\\u12" = ⟨[], some .cutEscape⟩ ∧ scan "\"\\u-001\"" = ⟨[], some .negativeEscape⟩ := by
  have hcut : scan "\"\\" = ⟨[], some .cutEscape⟩ := by decide +kernel
  have hplus : scan "\"\\u+041\"" = ⟨[placed .string "\"\\u+041\"" (some "A") ⟨1, 1⟩], none⟩ := by
    decide +kernel
  refine ⟨fun h => ?_, ?_, by decide +kernel, by decide +kernel⟩
  · obtain ⟨_, _, hscan, -⟩ := h.backslash [] [] [] rfl .nil broken_nil
    cases hcut.symm.trans hscan
  · rw [StartsString, hplus]
    exact ⟨rfl, _, _, rfl, rfl, rfl, rfl⟩

end Token

end FilterShell
