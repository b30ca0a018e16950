import FilterShell.Proofs.Json.Grammar
import FilterShell.Proofs.Text.Ascii
import FilterShell.Proofs.Token.Written
import FilterShell.Proofs.Value.Rendered

/-!
# Scanning what is written for data

Texts that are cut into tokens whatever stands around them (`Token.Scans`) are put together by symbols.  What
is written for data of JSON is cut into the tokens of a value that says the same (`Datum.Rendered.scans`).  A
number that is not written by digits alone leaves a *stray* token, and so spoils the whole text
(`Datum.Rendered.readable_or_spoils`).
-/

namespace FilterShell

variable {w : Text}

namespace Token

/-! ### Texts that are cut into tokens of their own -/

/-- More tokens in front. -/
def Scanned.pushAll (ts : List Token) (sc : Scanned) : Scanned := { sc with tokens := ts ++ sc.tokens }

/-- The number of the token is one of `N`, and the text of it one of `T`. -/
def Says (N : Decimal → Prop) (T : Text → Prop) (t : Token) : Prop :=
  (∀ w, t.kind = .number → t.text = some w → N (.ofNat (Decimal.natOf w))) ∧
    ∀ w, t.kind = .string → t.text = some w → T w

/-- The text is cut into tokens as asked, whatever stands in front of it, and whatever stands behind it
that does not run into it. -/
def Scans (N : Decimal → Prop) (T : Text → Prop) (P : List Token → Prop) (u : Text) : Prop :=
  ∀ lead p r, Apart r → ∃ ts next, P ts ∧ (∀ t ∈ ts, t.Says N T) ∧
    scanFrom lead p [] (u ++ r) = (scanFrom [] next [] r).pushAll ts

/-- The text is cut into some tokens of its own. -/
def Separate (u : Text) : Prop :=
  ∀ lead p r, Apart r → ∃ ts next, scanFrom lead p [] (u ++ r) = (scanFrom [] next [] r).pushAll ts

/-- The token is one that no document has: a sign or point of a number, or a name that says nothing. -/
def Stray (t : Token) : Prop :=
  t.kind = .minus ∨ t.kind = .dot ∨ t.kind = .name ∧
    ∀ w, t.text = some w → w ∉ [Text.ofString "false", Text.ofString "null", Text.ofString "true"]

/-- The text leaves a stray token, whatever stands in front of it, and whatever stands behind it that does
not run into it. -/
def Spoils (u : Text) : Prop :=
  ∀ lead p r, Apart r → ∃ t ∈ (scanFrom lead p [] (u ++ r)).tokens, t.Stray

variable {N : Decimal → Prop} {T : Text → Prop} {P Q : List Token → Prop} {u v : Text} {c : Rune}
  {k : Kind}

theorem pushAll_push (ts : List Token) (t : Token) (sc : Scanned) :
    (sc.pushAll ts).push t = sc.pushAll (t :: ts) := rfl

theorem pushAll_pushAll (ts us : List Token) (sc : Scanned) :
    (sc.pushAll us).pushAll ts = sc.pushAll (ts ++ us) := by
  simp [Scanned.pushAll]

theorem Scans.imp (h : Scans N T P u) (hPQ : ∀ ts, P ts → Q ts) : Scans N T Q u := by
  intro lead p r hr
  obtain ⟨ts, next, hP, hwords, hscan⟩ := h lead p r hr
  exact ⟨ts, next, hPQ ts hP, hwords, hscan⟩

theorem Scans.separate (h : Scans N T P u) : Separate u := by
  intro lead p r hr
  obtain ⟨ts, next, -, -, hscan⟩ := h lead p r hr
  exact ⟨ts, next, hscan⟩

/-- A text that is one token. -/
theorem scans_one {w : Option Text} (hwords : ∀ source p, (placed k source w p).Says N T)
    (h : ∀ lead p r, Apart r → ∃ source start next, scanFrom lead p [] (u ++ r) =
      (scanFrom [] next [] r).push (placed k source w start)) :
    Scans N T (fun ts => ∃ t, ts = [t] ∧ t.kind = k ∧ t.text = w) u := by
  intro lead p r hr
  obtain ⟨source, start, next, hscan⟩ := h lead p r hr
  exact ⟨_, next, ⟨_, rfl, rfl, rfl⟩, List.forall_mem_singleton.2 (hwords source start), hscan⟩

theorem says_symbol (k : Kind) (source : Text) (p : Position) : (placed k source none p).Says N T := by
  constructor <;> rintro w - ⟨⟩

theorem scans_symbol (hc : symbol? c = some k) :
    Scans N T (fun ts => ∃ t, ts = [t] ∧ t.kind = k ∧ t.text = none) [c] :=
  scans_one (says_symbol k) fun lead p _ _ => ⟨_, _, _, scanFrom_symbol lead p hc⟩

theorem Scans.cons_symbol (hc : symbol? c = some k) (h : Scans N T P u) :
    Scans N T (fun ts => ∃ t us, ts = t :: us ∧ t.kind = k ∧ P us) (c :: u) := by
  intro lead p r hr
  obtain ⟨ts, next, hP, hwords, hscan⟩ := h [] (p.after c) r hr
  refine ⟨placed k (lead ++ [c]) none p :: ts, next, ⟨_, ts, rfl, rfl, hP⟩,
    List.forall_mem_cons.2 ⟨says_symbol .., hwords⟩, ?_⟩
  rw [List.cons_append, scanFrom_symbol lead p hc, hscan, pushAll_push]

theorem Scans.cons_blank (hc : c.isBlank) (h : Scans N T P u) : Scans N T P (c :: u) := by
  intro lead p r hr
  rw [List.cons_append, scanFrom_blank lead p hc]
  exact h (lead ++ [c]) (p.after c) r hr

theorem Scans.append (h : Scans N T P u) (hv : Scans N T Q (c :: v)) (hc : ¬ c.isLetter ∧ ¬ c.isDigit) :
    Scans N T (fun ts => ∃ us vs, ts = us ++ vs ∧ P us ∧ Q vs) (u ++ c :: v) := by
  intro lead p r hr
  obtain ⟨us, next, hP, hus, hscan⟩ := h lead p (c :: v ++ r) (apart_cons hc)
  obtain ⟨vs, next', hQ, hvs, hscan'⟩ := hv [] next r hr
  refine ⟨us ++ vs, next', ⟨us, vs, rfl, hP, hQ⟩, List.forall_mem_append.2 ⟨hus, hvs⟩, ?_⟩
  rw [List.append_assoc, hscan, hscan', pushAll_pushAll]

/-! What is spoilt stays so. -/

theorem Spoils.cons_symbol (hc : symbol? c = some k) (h : Spoils u) : Spoils (c :: u) := by
  intro lead p r hr
  obtain ⟨t, ht, hstray⟩ := h [] (p.after c) r hr
  rw [List.cons_append, scanFrom_symbol lead p hc]
  exact ⟨t, List.mem_cons_of_mem _ ht, hstray⟩

theorem Spoils.cons_blank (hc : c.isBlank) (h : Spoils u) : Spoils (c :: u) := by
  intro lead p r hr
  rw [List.cons_append, scanFrom_blank lead p hc]
  exact h (lead ++ [c]) (p.after c) r hr

theorem Spoils.append (h : Spoils u) (hc : ¬ c.isLetter ∧ ¬ c.isDigit) (v : Text) :
    Spoils (u ++ c :: v) := by
  intro lead p r _
  rw [List.append_assoc]
  exact h lead p (c :: v ++ r) (apart_cons hc)

theorem Separate.append_spoils (h : Separate u) (hv : Spoils (c :: v))
    (hc : ¬ c.isLetter ∧ ¬ c.isDigit) : Spoils (u ++ c :: v) := by
  intro lead p r hr
  obtain ⟨us, next, hscan⟩ := h lead p (c :: v ++ r) (apart_cons hc)
  obtain ⟨t, ht, hstray⟩ := hv [] next r hr
  rw [List.append_assoc, hscan]
  exact ⟨t, List.mem_append_right us ht, hstray⟩

/-! ### Parts with commas between them -/

theorem symbol_comma : symbol? (Rune.ofChar ',') = some .comma := by decide

theorem symbol_colon : symbol? (Rune.ofChar ':') = some .colon := by decide

theorem symbol_openArray : symbol? (Rune.ofChar '[') = some .openArray := by decide

theorem symbol_closeArray : symbol? (Rune.ofChar ']') = some .closeArray := by decide

theorem symbol_openObject : symbol? (Rune.ofChar '\x7b') = some .openObject := by decide

theorem symbol_closeObject : symbol? (Rune.ofChar '\x7d') = some .closeObject := by decide

theorem symbol_apart (h : symbol? c = some k) : ¬ c.isLetter ∧ ¬ c.isDigit := by
  obtain ⟨-, -, -, hl, hd, -⟩ := symbol_only h
  exact ⟨hl, hd⟩

theorem join_cons_cons (u v : Text) (us : List Text) : Text.join ", " (u :: v :: us) =
    u ++ Rune.ofChar ',' :: Rune.ofChar ' ' :: Text.join ", " (v :: us) := by
  rw [Text.join, List.append_assoc]
  rfl

section Parts

variable {α : Type} {part : List Token → α → Prop} {q : α × Text} {parts : List (α × Text)}

theorem scans_join (h : ∀ q' ∈ q :: parts, Scans N T (part · q'.1) q'.2) :
    Scans N T (Json.Separated part · ((q :: parts).map (·.1)))
      (Text.join ", " ((q :: parts).map (·.2))) := by
  induction parts generalizing q with
  | nil => exact (h q List.mem_cons_self).imp fun ts hts => .one hts
  | cons q' parts ih =>
    obtain ⟨hq, hparts⟩ := List.forall_mem_cons.1 h
    simp only [List.map_cons, join_cons_cons]
    refine (hq.append (((ih hparts).cons_blank (by decide)).cons_symbol symbol_comma)
      (symbol_apart symbol_comma)).imp ?_
    rintro _ ⟨us, _, rfl, hus, comma, vs, rfl, hkind, hvs⟩
    exact .more hus hkind hvs

/-- Parts in brackets. -/
theorem scans_bracketed {o c : Rune} {ko kc : Kind} (ho : symbol? o = some ko) (hc : symbol? c = some kc)
    (h : ∀ q ∈ parts, Scans N T (part · q.1) q.2) :
    Scans N T (fun ts => ∃ t us, ts = t :: us ∧ t.kind = ko ∧
      Json.Enclosed part kc us (parts.map (·.1))) ([o] ++ Text.join ", " (parts.map (·.2)) ++ [c]) := by
  refine Scans.cons_symbol ho ?_
  cases parts with
  | nil =>
    refine (scans_symbol hc).imp ?_
    rintro _ ⟨t, rfl, hkind, -⟩
    exact .empty hkind
  | cons q parts =>
    refine ((scans_join h).append (scans_symbol hc) (symbol_apart hc)).imp ?_
    rintro _ ⟨us, _, rfl, hus, t, rfl, hkind, -⟩
    exact .parts hus hkind

end Parts

theorem spoils_join {us : List Text} (h : ∀ u ∈ us, Separate u ∨ Spoils u)
    (hspoils : ∃ u ∈ us, Spoils u) : Spoils (Text.join ", " us) := by
  induction us with
  | nil =>
    obtain ⟨u, hu, -⟩ := hspoils
    cases hu
  | cons u us ih =>
    obtain ⟨hu, hus⟩ := List.forall_mem_cons.1 h
    cases us with
    | nil =>
      obtain ⟨u', hu', hspoils⟩ := hspoils
      rwa [List.mem_singleton.1 hu'] at hspoils
    | cons v us =>
      rw [join_cons_cons]
      by_cases hspoilt : Spoils u
      · exact hspoilt.append (symbol_apart symbol_comma) _
      obtain ⟨u', hu', hspoils⟩ := hspoils
      rcases List.mem_cons.1 hu' with rfl | hu'
      · exact absurd hspoils hspoilt
      have hrest := ih hus ⟨u', hu', hspoils⟩
      exact (hu.resolve_right hspoilt).append_spoils
        ((hrest.cons_blank (by decide)).cons_symbol symbol_comma) (symbol_apart symbol_comma)

/-- Parts in brackets, of which each is good or spoils the text. -/
theorem all_or_spoils {α : Type} {parts : List α} {good : α → Prop} {f : α → Text} {o c : Rune}
    {ko kc : Kind} (ho : symbol? o = some ko) (hc : symbol? c = some kc)
    (h : ∀ q ∈ parts, (good q ∧ Separate (f q)) ∨ Spoils (f q)) :
    (∀ q ∈ parts, good q) ∨ Spoils ([o] ++ Text.join ", " (parts.map f) ++ [c]) := by
  by_cases hspoils : ∃ q ∈ parts, Spoils (f q)
  · obtain ⟨q, hq, hspoils⟩ := hspoils
    have hjoin := spoils_join (List.forall_mem_map.2 fun q hq => (h q hq).imp_left And.right)
      ⟨f q, List.mem_map_of_mem hq, hspoils⟩
    exact .inr (Spoils.cons_symbol ho (hjoin.append (symbol_apart hc) []))
  · exact .inl fun q hq => ((h q hq).resolve_right fun hq' => hspoils ⟨q, hq, hq'⟩).1

/-! ### Words and numbers -/

theorem scans_name (hw : w ≠ []) (hl : ∀ r ∈ w, r.isLetter) :
    Scans N T (fun ts => ∃ t, ts = [t] ∧ t.kind = .name ∧ t.text = some w) w := by
  refine scans_one (fun source p => ?_) fun lead p r hr =>
    ⟨_, _, _, scanFrom_name lead p hw hl fun c hc => (hr c hc).1⟩
  constructor <;> rintro w' ⟨⟩

theorem scans_number (hw : w ≠ []) (hd : ∀ r ∈ w, r.isDigit) (hN : N (.ofNat (Decimal.natOf w))) :
    Scans N T (fun ts => ∃ t, ts = [t] ∧ t.kind = .number ∧ t.text = some w) w := by
  refine scans_one (fun source p => ⟨?_, ?_⟩) fun lead p r hr =>
    ⟨_, _, _, scanFrom_number lead p hw hd fun c hc => (hr c hc).2⟩
  · rintro _ - ⟨⟩
    exact hN
  · rintro _ ⟨⟩

theorem scans_literal (hw : w.Narrow) (hT : T w) :
    Scans N T (fun ts => ∃ t, ts = [t] ∧ t.kind = .string ∧ t.text = some w) w.literal := by
  refine scans_one (fun source p => ⟨?_, ?_⟩) fun lead p r _ => ?_
  · rintro _ ⟨⟩
  · rintro _ - ⟨⟩
    exact hT
  · obtain ⟨source, start, next, hscan⟩ := scanFrom_string lead p hw
    exact ⟨source, start, next, hscan⟩

/-- A word with another first letter than `false`, `null` and `true` is a stray token. -/
theorem letter_stray {r : Text} (hc : c.isLetter)
    (hne : c ∉ [Rune.ofChar 'f', Rune.ofChar 'n', Rune.ofChar 't']) (lead : Text) (p : Position) :
    ∃ t ∈ (scanFrom lead p [] (c :: r)).tokens, t.Stray := by
  obtain ⟨w, hw⟩ : ∃ w, (c :: r).takeWhile Rune.isLetter = c :: w :=
    ⟨_, List.takeWhile_cons_of_pos hc⟩
  have hletters : ∀ r' ∈ c :: w, r'.isLetter := by
    rw [← hw]
    exact fun r' hr' => List.mem_takeWhile_imp hr'
  have hrest : ∀ r' ∈ ((c :: r).dropWhile Rune.isLetter).head?, ¬ r'.isLetter := by
    intro r' hr'
    have hhead := List.head?_dropWhile_not Rune.isLetter (c :: r)
    rw [hr'] at hhead
    exact Bool.not_eq_true _ ▸ hhead
  rw [← List.takeWhile_append_dropWhile (p := Rune.isLetter) (l := c :: r), hw,
    scanFrom_name lead p (List.cons_ne_nil c w) hletters hrest]
  refine ⟨_, List.mem_cons_self, .inr (.inr ⟨rfl, ?_⟩)⟩
  rintro _ ⟨⟩ hmem
  simp only [List.mem_cons, List.not_mem_nil, or_false, not_or] at hmem hne
  rcases hmem with h | h | h
  · exact hne.1 (List.cons.inj h).1
  · exact hne.2.1 (List.cons.inj h).1
  · exact hne.2.2 (List.cons.inj h).1

/-- What stands behind the first digits of a number is a stray token. -/
theorem spoils_marked (h : Decimal.Marked u) : Spoils u := by
  obtain ⟨w, c, t, rfl, hw, hc⟩ := h
  have hstray : ∀ lead p r, ∃ t ∈ (scanFrom lead p [] (c :: r)).tokens, t.Stray := by
    intro lead p r
    have hcases : c = Rune.ofChar '-' ∨ c = Rune.ofChar '.' ∨ c = Rune.ofChar 'E' ∨
        c = Rune.ofChar 'I' := by
      simpa [Text.ofString] using hc
    rcases hcases with rfl | rfl | rfl | rfl
    · rw [scanFrom_symbol lead p (by decide : symbol? (Rune.ofChar '-') = some .minus)]
      exact ⟨_, List.mem_cons_self, .inl rfl⟩
    · rw [scanFrom_symbol lead p (by decide : symbol? (Rune.ofChar '.') = some .dot)]
      exact ⟨_, List.mem_cons_self, .inr (.inl rfl)⟩
    · exact letter_stray (by decide) (by decide) lead p
    · exact letter_stray (by decide) (by decide) lead p
  have hdigit : ¬ c.isDigit := (by decide : ∀ c ∈ Text.ofString "-.EI", ¬ c.isDigit) c hc
  intro lead p r _
  rw [List.append_assoc, List.cons_append]
  cases w with
  | nil => exact hstray lead p _
  | cons d w =>
    rw [scanFrom_number lead p (List.cons_ne_nil d w) hw (by rintro _ ⟨⟩; exact hdigit)]
    obtain ⟨t', ht', hstray⟩ := hstray [] (p.afterAll (d :: w)) (t ++ r)
    exact ⟨t', List.mem_cons_of_mem _ ht', hstray⟩

end Token

open Token (Scans Spoils)

variable {N : Decimal → Prop} {T : Text → Prop} {u : Text} {x y : Datum}

namespace Datum

/-- The data that is read back from its text: every number is written by digits alone, no character of a
text is above `0xFFFF`, every key is a text, and there are no exceptions. -/
def Readable (x : Datum) : Prop := x.MadeOf (fun d => ∀ r ∈ d.text, r.isDigit) Text.Narrow

theorem Rendered.eq_literal {k : Text} (h : x.Rendered u) (hx : x = .text k) : u = k.literal := by
  subst hx
  cases h
  rfl

theorem scans_member {k : Text} (hk : k.Narrow) (hT : T k) (h : Scans N T (Json.IsValue · y) u) :
    Scans N T (Json.IsMember · (k, y)) (k.literal ++ Text.ofString ": " ++ u) := by
  rw [List.append_assoc]
  refine ((Token.scans_literal hk hT).append ((h.cons_blank (by decide)).cons_symbol Token.symbol_colon)
    (by decide)).imp ?_
  rintro _ ⟨_, _, rfl, ⟨t, rfl, hkind, htext⟩, colon, ts, rfl, hcolon, hts⟩
  exact .mk hkind htext hcolon hts

/-- Keys in increasing order differ. -/
theorem Increasing.nodup {members : List (Text × Datum)}
    (h : Increasing (members.map fun m => (.text m.1, m.2))) : (members.map (·.1)).Nodup := by
  refine List.pairwise_map.2 ((List.pairwise_map.1 h).imp fun {m m'} hlt heq => ?_)
  have hlt := hlt m.1 m'.1 rfl rfl
  rw [heq, Text.lt_eq] at hlt
  exact lt_irrefl _ (of_decide_eq_true hlt)

theorem scans_list {rows : List (Datum × Text)}
    (h : ∀ r ∈ rows, ∃ y, y.Same r.1 ∧ y.Ordered ∧ Scans N T (Json.IsValue · y) r.2) :
    ∃ y, y.Same (.list (rows.map (·.1))) ∧ y.Ordered ∧
      Scans N T (Json.IsValue · y) (Plain.bracketed "[" "]" (rows.map (·.2))) := by
  choose! f hsame hordered hscans using h
  have hleft : (rows.map fun r => (f r, r.1)).map (·.1) = rows.map f := by
    rw [List.map_map]
    rfl
  have hright : (rows.map fun r => (f r, r.1)).map (·.2) = rows.map (·.1) := by
    rw [List.map_map]
    rfl
  refine ⟨.list (rows.map f), .list hleft hright (List.forall_mem_map.2 hsame),
    .list (List.forall_mem_map.2 hordered), ?_⟩
  have hparts := Token.scans_bracketed Token.symbol_openArray Token.symbol_closeArray
    (List.forall_mem_map (f := fun r => (f r, r.2)) |>.2 hscans)
  rw [List.map_map, List.map_map] at hparts
  refine hparts.imp ?_
  rintro _ ⟨t, us, rfl, hkind, hus⟩
  exact .array hkind hus

/-- The entries are said in the order in which they are written. -/
theorem scans_object {entries : List (Datum × Datum)} {rows : List ((Datum × Datum) × (Text × Text))}
    (hperm : (rows.map (·.1)).Perm entries) (hsorted : Increasing (rows.map (·.1)))
    (hkeys : ∀ r ∈ rows, ∃ k, r.1.1 = .text k ∧ T k ∧ k.Narrow ∧ r.2.1 = k.literal)
    (hvalues : ∀ r ∈ rows, ∃ y, y.Same r.1.2 ∧ y.Ordered ∧ Scans N T (Json.IsValue · y) r.2.2) :
    ∃ y, y.Same (.object entries) ∧ y.Ordered ∧ Scans N T (Json.IsValue · y)
      (Plain.bracketed "\x7b" "\x7d" (rows.map fun r => r.2.1 ++ Text.ofString ": " ++ r.2.2)) := by
  choose! key hkey hT hnarrow hliteral using hkeys
  choose! f hsame hordered hscans using hvalues
  set members := rows.map fun r => (key r, f r) with hmembers
  have hincreasing : Increasing (members.map fun m => (.text m.1, m.2)) := by
    rw [hmembers, List.map_map]
    refine List.pairwise_map.2 ((List.pairwise_map.1 hsorted).imp_of_mem fun {r r'} hr hr' hlt => ?_)
    rintro _ _ ⟨⟩ ⟨⟩
    exact hlt _ _ (hkey r hr) (hkey r' hr')
  have hrecord : record members = members.map fun m => (.text m.1, m.2) := by
    rw [record, merged_of_nodup hincreasing.nodup]
  refine ⟨.object (record members), ?_, ?_, ?_⟩
  · set both := rows.map fun r => ((Datum.text (key r), f r), r.1) with hboth
    have hleft : both.map (·.1) = record members := by
      rw [hrecord, hmembers, hboth, List.map_map, List.map_map]
      rfl
    have hright : both.map (·.2) = rows.map (·.1) := by
      rw [hboth, List.map_map]
      rfl
    refine .object (.of_eq hleft) (hright ▸ hperm) (List.forall_mem_map.2 fun r hr => ?_)
      (List.forall_mem_map.2 hsame)
    rw [hkey r hr]
    exact .text _
  · rw [hrecord]
    exact .object (List.forall_mem_map.2 fun m _ => ⟨m.1, rfl⟩) hincreasing
      (List.forall_mem_map.2 (List.forall_mem_map.2 hordered))
  · have hrows : ∀ r ∈ rows, Scans N T (Json.IsMember · (key r, f r))
        (r.2.1 ++ Text.ofString ": " ++ r.2.2) := by
      intro r hr
      rw [hliteral r hr]
      exact scans_member (hnarrow r hr) (hT r hr) (hscans r hr)
    have hparts := Token.scans_bracketed Token.symbol_openObject Token.symbol_closeObject
      (List.forall_mem_map (f := fun r => ((key r, f r), r.2.1 ++ Text.ofString ": " ++ r.2.2)) |>.2 hrows)
    rw [List.map_map, List.map_map] at hparts
    refine hparts.imp ?_
    rintro _ ⟨t, us, rfl, hkind, hus⟩
    exact .object hkind hus

/-- **What is written for data** of numbers that are written by digits alone, and of texts that are read
back, is cut into the tokens of a value that says the same, with the keys in order. -/
theorem Rendered.scans (hN : ∀ d, N d → ∀ r ∈ d.text, r.isDigit) (hT : ∀ t, T t → t.Narrow)
    (h : x.Rendered u) (hx : x.MadeOf N T) :
    ∃ y, y.Same x ∧ y.Ordered ∧ Scans N T (Json.IsValue · y) u := by
  induction h with
  | exception => cases hx
  | null =>
    refine ⟨.null, .null, .null, (Token.scans_name (by decide) (by decide)).imp ?_⟩
    rintro _ ⟨t, rfl, hkind, htext⟩
    exact .scalar (.null hkind htext)
  | bool b =>
    refine ⟨.bool b, .bool b, .bool b, ?_⟩
    cases b with
    | false =>
      refine (Token.scans_name (by decide) (by decide)).imp ?_
      rintro _ ⟨t, rfl, hkind, htext⟩
      exact .scalar (.false hkind htext)
    | true =>
      refine (Token.scans_name (by decide) (by decide)).imp ?_
      rintro _ ⟨t, rfl, hkind, htext⟩
      exact .scalar (.true hkind htext)
  | @number d hnan =>
    cases hx with
    | number hd =>
      rcases Decimal.text_cases hnan with ⟨n, rfl, htext⟩ | hmarked
      · have hself : (Decimal.ofNat n).compare (Decimal.ofNat n) = .eq := by
          rw [Decimal.compare_eq_cmp rfl rfl, cmp_self_eq_eq]
        refine ⟨_, .number hself, .number _, ?_⟩
        rw [htext]
        refine (Token.scans_number (Text.ofNat_ne_nil n) (fun r hr => Text.ofNat_digits hr)
          ((Decimal.natOf_ofNat n).symm ▸ hd)).imp ?_
        rintro _ ⟨t, rfl, hkind, htext⟩
        have hscalar := Json.IsScalar.number hkind htext
        rw [Decimal.natOf_ofNat] at hscalar
        exact .scalar hscalar
      · exact absurd (hN d hd) hmarked.not_digits
  | text t =>
    cases hx with
    | text ht =>
      refine ⟨.text t, .text t, .text t, (Token.scans_literal (hT t ht) ht).imp ?_⟩
      rintro _ ⟨tok, rfl, hkind, htext⟩
      exact .scalar (.string hkind htext)
  | list hitems _ ih =>
    subst hitems
    cases hx with
    | list hx => exact scans_list fun r hr => ih r hr (hx _ (List.mem_map_of_mem hr))
  | @object entries rows hperm hsorted hkeys _ _ ih =>
    cases hx with
    | object hxkeys hxvalues =>
      have hmem : ∀ r ∈ rows, r.1 ∈ entries := fun r hr => hperm.mem_iff.1 (List.mem_map_of_mem hr)
      refine scans_object hperm hsorted (fun r hr => ?_) fun r hr => ih r hr (hxvalues _ (hmem r hr))
      obtain ⟨k, hk, hTk⟩ := hxkeys _ (hmem r hr)
      exact ⟨k, hk, hTk, hT k hTk, (hkeys r hr).eq_literal hk⟩

/-! ### Data that is not read back -/

theorem Rendered.separate (h : x.Rendered u) (hx : x.Readable) : Token.Separate u := by
  obtain ⟨y, -, -, hscans⟩ := h.scans (fun _ hd => hd) (fun _ ht => ht) hx
  exact hscans.separate

/-- The text of an entry is good if the value in it is, and is spoilt with it. -/
theorem member_or_spoils {k : Text} (hk : k.Narrow) (h : x.Rendered u) (hx : x.Readable ∨ Spoils u) :
    (x.Readable ∧ Token.Separate (k.literal ++ Text.ofString ": " ++ u)) ∨
      Spoils (k.literal ++ Text.ofString ": " ++ u) := by
  rcases hx with hx | hspoils
  · obtain ⟨y, -, -, hscans⟩ := h.scans (fun _ hd => hd) (fun _ ht => ht) hx
    exact .inl ⟨hx, (scans_member hk hk hscans).separate⟩
  · have hkey : Token.Separate k.literal := Rendered.separate (.text k) (.text hk)
    rw [List.append_assoc]
    exact .inr (hkey.append_spoils ((hspoils.cons_blank (by decide)).cons_symbol Token.symbol_colon)
      (by decide))

/-- **One number that is not written by digits alone spoils the text.** -/
theorem Rendered.readable_or_spoils (h : x.Rendered u) (hx : x.MadeOf (fun _ => True) Text.Narrow) :
    x.Readable ∨ Spoils u := by
  induction h with
  | exception => cases hx
  | null => exact .inl .null
  | bool b => exact .inl (.bool b)
  | number hnan =>
    rcases Decimal.text_cases hnan with ⟨n, rfl, htext⟩ | hmarked
    · refine .inl (.number ?_)
      rw [htext]
      exact fun r hr => Text.ofNat_digits hr
    · exact .inr (Token.spoils_marked hmarked)
  | text =>
    cases hx with
    | text ht => exact .inl (.text ht)
  | @list items rows hitems hrows ih =>
    subst hitems
    cases hx with
    | list hx =>
      have hrow : ∀ r ∈ rows, (r.1.Readable ∧ Token.Separate r.2) ∨ Spoils r.2 := fun r hr =>
        (ih r hr (hx _ (List.mem_map_of_mem hr))).imp_left fun hr' => ⟨hr', (hrows r hr).separate hr'⟩
      refine (Token.all_or_spoils Token.symbol_openArray Token.symbol_closeArray hrow).imp_left ?_
      exact fun hall => .list (List.forall_mem_map.2 hall)
  | @object entries rows hperm hsorted hkeys hvalues _ ih =>
    cases hx with
    | object hxkeys hxvalues =>
      have hmem : ∀ r ∈ rows, r.1 ∈ entries := fun r hr => hperm.mem_iff.1 (List.mem_map_of_mem hr)
      have hrow : ∀ r ∈ rows, (r.1.2.Readable ∧
          Token.Separate (r.2.1 ++ Text.ofString ": " ++ r.2.2)) ∨
            Spoils (r.2.1 ++ Text.ofString ": " ++ r.2.2) := by
        intro r hr
        obtain ⟨k, hk, hnarrow⟩ := hxkeys _ (hmem r hr)
        rw [(hkeys r hr).eq_literal hk]
        exact member_or_spoils hnarrow (hvalues r hr) (ih r hr (hxvalues _ (hmem r hr)))
      refine (Token.all_or_spoils Token.symbol_openObject Token.symbol_closeObject hrow).imp_left ?_
      refine fun hall => .object hxkeys fun e he => ?_
      obtain ⟨r, hr, rfl⟩ := List.mem_map.1 (hperm.mem_iff.2 he)
      exact hall r hr

theorem ascii_bracketed {o c : String} (ho : Text.Ascii o) (hc : Text.Ascii c) {us : List Text}
    (h : ∀ u ∈ us, u.Ascii) : (Plain.bracketed o c us).Ascii :=
  (ho.append (Text.ascii_join h)).append hc

/-- Data without exceptions is written in ASCII. -/
theorem Rendered.ascii (h : x.Rendered u) (hx : x.MadeOf N T) : u.Ascii := by
  induction h with
  | exception => cases hx
  | null => decide
  | bool b => cases b <;> decide
  | number hnan => exact Decimal.ascii_text hnan
  | text t => exact (Text.shown_literal t).ascii
  | list hitems _ ih =>
    subst hitems
    cases hx with
    | list hx =>
      refine ascii_bracketed (by decide) (by decide) ?_
      exact List.forall_mem_map.2 fun r hr => ih r hr (hx _ (List.mem_map_of_mem hr))
  | @object entries rows hperm _ hkeys _ ihk ihv =>
    cases hx with
    | object hxkeys hxvalues =>
      have hmem : ∀ r ∈ rows, r.1 ∈ entries := fun r hr => hperm.mem_iff.1 (List.mem_map_of_mem hr)
      refine ascii_bracketed (by decide) (by decide) ?_
      refine List.forall_mem_map.2 fun r hr => ?_
      obtain ⟨k, hk, -⟩ := hxkeys _ (hmem r hr)
      rw [(hkeys r hr).eq_literal hk]
      exact ((Text.shown_literal k).ascii.append (by decide)).append
        (ihv r hr (hxvalues _ (hmem r hr)))

end Datum

/-! ### The whole text -/

namespace Token

variable {P : List Token → Prop}

/-- No byte order mark stands in front of a text in ASCII. -/
theorem scan_ascii (h : u.Ascii) : scan u = scanFrom [] {} [] u := by
  cases u with
  | nil => rfl
  | cons r u =>
    have hmark : r ≠ byteOrderMark := by
      rintro rfl
      exact absurd (h _ List.mem_cons_self) (by decide)
    rw [scan, if_neg hmark]

theorem Scans.scanFrom_eq (h : Scans N T P u) (p : Position) :
    ∃ ts, P ts ∧ (∀ t ∈ ts, t.Says N T) ∧ scanFrom [] p [] u = ⟨ts, none⟩ := by
  obtain ⟨ts, next, hP, hwords, hscan⟩ := h [] p [] apart_nil
  have hend : scanFrom [] next [] [] = ⟨[], none⟩ := by
    rw [scanFrom]
    rfl
  rw [List.append_nil, hend, Scanned.pushAll, List.append_nil] at hscan
  exact ⟨ts, hP, hwords, hscan⟩

theorem Scans.scan_eq (h : Scans N T P u) (hu : u.Ascii) :
    ∃ ts, P ts ∧ (∀ t ∈ ts, t.Says N T) ∧ scan u = ⟨ts, none⟩ := by
  rw [scan_ascii hu]
  exact h.scanFrom_eq {}

theorem Spoils.scan (h : Spoils u) (hu : u.Ascii) : ∃ t ∈ (Token.scan u).tokens, t.Stray := by
  rw [scan_ascii hu, ← List.append_nil u]
  exact h [] {} [] apart_nil

end Token

end FilterShell
