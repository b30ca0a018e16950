import FilterShell.Proofs.Token.Regular
import Mathlib.Data.List.Chain

/-!
# What the tokens keep of the source

The pieces of source of the tokens, with the white space in front of them, are the source again, as long as no
string has an escape that cannot be read.  Such an escape ends the scan; the white space in front of the string
is then in two tokens, and of a `\u` without a number the backslash is in none.  So the pieces give the source if
and only if every such escape has become a token as it stands (`WholeEscape`, `scan_joined`).
-/

namespace FilterShell

variable {rest t : Text} {piece : Token} {p : Position}

namespace Token

/-- The pieces of source that the tokens come from, one after the other. -/
def joined (tokens : List Token) : Text := tokens.flatMap fun t => t.source.getD []

/-- A piece of a string that neither ends the string nor goes over to a program. -/
def isUnfinished (t : Token) : Bool := t.kind = .stringIncomplete || t.kind = .stringEndIncomplete

/-- If the tokens are an unfinished piece of a string and the escape behind it, then the second one is
the escape as it stands: it begins with the backslash, and its source is nothing but its text. -/
def WholeEscape (piece escape : Token) : Prop :=
  piece.isUnfinished → escape.kind = .illegal →
    escape.source = escape.text ∧ ∃ rest, escape.text = some (Rune.ofChar '\\' :: rest)

@[simp] theorem joined_cons (t : Token) (ts : List Token) :
    joined (t :: ts) = t.source.getD [] ++ joined ts := rfl

/-! ### Strings -/

/-- What of the source is neither in the literal nor in the rest: the backslash of an escape that cannot
be read. -/
def Stop.skipped : Stop → Text
  | .badNumber | .badEscape => [Rune.ofChar '\\']
  | _                       => []

/-- **The content of a string is its literal**, besides an escape that cannot be read. -/
theorem scanBody_split (h : ∀ e, (scanBody t).stop ≠ .failed e) :
    t = (scanBody t).literal ++ ((scanBody t).stop.skipped ++ (scanBody t).rest) := by
  fun_induction scanBody t with
  | case1 | case2 | case5 | case9 | case10 => simp [Stop.skipped]
  | case3 | case6 | case8 => exact absurd rfl (h _)
  | case4 e tail c _ _ ih => exact congrArg (Rune.ofChar '\\' :: e :: ·) (ih h)
  | case7 n c h₁ h₂ h₃ h₄ tail _ _ _ _ ih =>
    exact congrArg ([Rune.ofChar '\\', Rune.ofChar 'u', h₁, h₂, h₃, h₄] ++ ·) (ih h)
  | case11 r rest _ _ ih => exact congrArg (r :: ·) (ih h)

theorem scanBody_badNumber (h : (scanBody t).stop = .badNumber) :
    ∃ rest, (scanBody t).rest = Rune.ofChar 'u' :: rest := by
  fun_induction scanBody t with
  | case1 | case2 | case3 | case6 | case8 | case9 | case10 => cases h
  | case4 _ _ _ _ _ ih | case7 _ _ _ _ _ _ _ _ _ _ _ ih | case11 _ _ _ _ ih => exact ih h
  | case5 => exact ⟨_, rfl⟩

theorem scanBody_sourceEnd (h : (scanBody t).stop = .sourceEnd) : (scanBody t).rest = [] := by
  fun_induction scanBody t with
  | case1 => rfl
  | case2 | case3 | case5 | case6 | case8 | case9 | case10 => cases h
  | case4 _ _ _ _ _ ih | case7 _ _ _ _ _ _ _ _ _ _ _ ih | case11 _ _ _ _ ih => exact ih h

/-! ### Tokens -/

/-- A token in front keeps what its source says, if the rest keeps the rest. -/
theorem joined_push {t : Token} {ts : List Token} {piece whole : Text}
    (hsource : t.source = some piece) (hwhole : whole = piece ++ rest)
    (hlink : t.isUnfinished → ts = [])
    (h : joined ts = rest ↔ ts.IsChain WholeEscape) :
    joined (t :: ts) = whole ↔ (t :: ts).IsChain WholeEscape := by
  rw [joined_cons, hsource, Option.getD_some, hwhole, List.append_cancel_left_eq, h,
    List.isChain_cons, and_iff_right]
  intro u hu hopen
  rw [hlink hopen] at hu
  cases hu

theorem isUnfinished_piece (continued : Bool) (stop : Stop) (source : Text) (text : Option Text)
    (p : Position) : (placed (pieceKind continued stop) source text p).isUnfinished ↔
      stop ≠ .quote ∧ stop ≠ .interpolation := by
  cases continued <;> cases stop <;> simp [isUnfinished, placed, pieceKind]

/-- A symbol has no text, and so it is no piece of a string. -/
theorem symbol_finished {r : Rune} {k : Kind} (h : symbol? r = some k) {source : Text} :
    (placed k source none p).isUnfinished = false := by
  have hregular := (symbol_regular h source p).1
  cases k with
  | stringIncomplete | stringEndIncomplete =>
    obtain ⟨w, hw⟩ := hregular
    cases hw
  | _ => rfl

/-- A piece of a string, with the white space and the quote or parenthesis in front, and what is left of
the source. -/
theorem piece_split (lead : Text) (r : Rune) {stop : Stop}
    (hstop : (scanBody rest).stop = stop) (h : ∀ e, stop ≠ .failed e) :
    lead ++ r :: rest = (lead ++ r :: (scanBody rest).literal) ++
      (stop.skipped ++ (scanBody rest).rest) := by
  subst hstop
  rw [List.append_assoc, List.cons_append, ← scanBody_split h]

theorem isChain_escape {escape : Token} (hpiece : piece.isUnfinished)
    (hescape : escape.kind = .illegal) : [piece, escape].IsChain WholeEscape ↔
      escape.source = escape.text ∧ ∃ rest, escape.text = some (Rune.ofChar '\\' :: rest) := by
  simp only [List.isChain_cons_cons, List.isChain_singleton, and_true, WholeEscape, hpiece, hescape,
    true_imp_iff]

/-- Without its backslash, an escape is not whole, and it is not what stands in the source. -/
theorem joined_badNumber {lead literal text : Text}
    (hlead : Rune.ofChar '\\' ∉ lead) (hrest : rest = Rune.ofChar 'u' :: text)
    (hsource : piece.source = some literal) (hpiece : piece.isUnfinished) :
    joined [piece, placed .illegal (lead ++ rest) (some rest) p] =
        literal ++ (Rune.ofChar '\\' :: rest) ↔
      [piece, placed .illegal (lead ++ rest) (some rest) p].IsChain WholeEscape := by
  rw [isChain_escape hpiece rfl]
  have hslash : Rune.ofChar 'u' ≠ Rune.ofChar '\\' := by decide
  constructor
  · intro h
    have hjoin : lead ++ rest = Rune.ofChar '\\' :: rest := by
      simpa [joined, hsource, placed] using h
    cases lead with
    | nil => simp [hrest] at hjoin
    | cons b lead =>
      obtain ⟨rfl, -⟩ := List.cons.inj hjoin
      exact absurd List.mem_cons_self hlead
  · rintro ⟨-, tail, htail⟩
    simp [placed, hrest, hslash] at htail

/-- With its backslash, an escape is whole if there is no white space in front. -/
theorem joined_badEscape {lead literal : Text}
    (hsource : piece.source = some literal) (hpiece : piece.isUnfinished) :
    let escape := placed .illegal (lead ++ Rune.ofChar '\\' :: rest) (some (Rune.ofChar '\\' :: rest)) p
    joined [piece, escape] = literal ++ (Rune.ofChar '\\' :: rest) ↔
      [piece, escape].IsChain WholeEscape := by
  intro escape
  rw [isChain_escape hpiece rfl]
  simp [joined, hsource, escape, placed]

/-- The statement for the rest of a source, with white space in front that is in no token yet. -/
theorem scanFrom_joined (lead : Text) (p : Position) (depths : List Nat) (source : Text)
    (hlead : Rune.ofChar '\\' ∉ lead) (herror : (scanFrom lead p depths source).error = none) :
    joined (scanFrom lead p depths source).tokens = lead ++ source ↔
      (scanFrom lead p depths source).tokens.IsChain WholeEscape := by
  have hnil : Rune.ofChar '\\' ∉ ([] : Text) := List.not_mem_nil
  fun_induction scanFrom lead p depths source with
  | case1 lead p depths h => simp_all [joined]
  | case2 lead p depths => simp [joined]
  | case3 lead p depths r rest _ _ body _ piece _ _ hstop ih
  | case5 lead p depths r rest _ _ body _ piece _ _ hstop ih =>
    have hsplit := piece_split lead r hstop (by simp)
    refine joined_push rfl hsplit (fun h => ?_) ?_
    · simp [piece, isUnfinished_piece, hstop] at h
    · exact ih hnil herror
  | case4 lead p depths r rest _ _ body _ piece _ _ hstop ih =>
    have hsplit := piece_split lead r hstop (by simp)
    refine joined_push rfl hsplit (fun _ => ?_) ?_
    · simp [body, scanBody_sourceEnd hstop, scanFrom]
    · exact ih hnil herror
  | case6 lead p depths r rest _ _ body _ piece _ _ hstop =>
    have hsplit := piece_split lead r hstop (by simp)
    obtain ⟨text, htext⟩ := scanBody_badNumber hstop
    rw [hsplit]
    exact joined_badNumber hlead htext rfl (by simp [piece, isUnfinished_piece, hstop])
  | case7 lead p depths r rest _ _ body _ piece _ _ hstop =>
    have hsplit := piece_split lead r hstop (by simp)
    rw [hsplit]
    exact joined_badEscape rfl (by simp [piece, isUnfinished_piece, hstop])
  | case8 => cases herror
  | case9 lead p depths r rest _ _ hblank ih =>
    have hr : Rune.ofChar '\\' ≠ r := by
      rintro rfl
      exact absurd hblank (by decide)
    have hmore : Rune.ofChar '\\' ∉ lead ++ [r] := by simp [hlead, hr]
    simpa using ih hmore herror
  | case10 lead p depths rest comment _ _ _ ih =>
    refine joined_push rfl ?_ (by simp [placed, isUnfinished]) (ih hnil herror)
    simp [comment]
  | case11 lead p depths r rest _ _ _ _ _ letters ih =>
    refine joined_push rfl ?_ (by simp [placed, isUnfinished]) (ih hnil herror)
    simp [letters]
  | case12 lead p depths r rest _ _ _ _ _ _ digits ih =>
    refine joined_push rfl ?_ (by simp [placed, isUnfinished]) (ih hnil herror)
    simp [digits]
  | case13 lead p depths r rest _ _ _ _ _ _ kind hkind _ ih =>
    refine joined_push rfl (by simp) (fun h => ?_) (ih hnil herror)
    rw [symbol_finished hkind] at h
    cases h
  | case14 => simp [joined, placed]

/-- **Nothing but a broken escape is lost.**  If a source is cut into tokens, then their pieces of source
make up the source again exactly if no escape that cannot be read has lost its backslash or has white
space before it. -/
theorem scan_joined (source : Text) (herror : (scan source).error = none) :
    joined (scan source).tokens = source ↔ (scan source).tokens.IsChain WholeEscape := by
  have hnil : Rune.ofChar '\\' ∉ ([] : Text) := List.not_mem_nil
  unfold scan at herror ⊢
  split
  · exact scanFrom_joined [] {} [] [] hnil herror
  · next r rest =>
    split
    · next hmark =>
      have hlead : Rune.ofChar '\\' ∉ [r] := by
        rw [hmark]
        decide
      exact scanFrom_joined [r] {} [] rest hlead (by simpa [hmark] using herror)
    · next hmark => exact scanFrom_joined [] {} [] (r :: rest) hnil (by simpa [hmark] using herror)

/-- The theorem at strings in strings, a comment, and an escape that stands in no token but its own. -/
theorem scan_joined_nested :
    (scan "\ufeff a.\"b\\(1 + \"\\u0041\" )c\" # d\n\"\\x").error = none ∧
      (joined (scan "\ufeff a.\"b\\(1 + \"\\u0041\" )c\" # d\n\"\\x").tokens =
          "\ufeff a.\"b\\(1 + \"\\u0041\" )c\" # d\n\"\\x" ↔
        (scan "\ufeff a.\"b\\(1 + \"\\u0041\" )c\" # d\n\"\\x").tokens.IsChain WholeEscape) := by
  have herror : (scan "\ufeff a.\"b\\(1 + \"\\u0041\" )c\" # d\n\"\\x").error = none := by
    decide +kernel
  exact ⟨herror, scan_joined _ herror⟩

/-- A backslash is lost, and a blank is there twice. -/
theorem scan_loses_backslash :
    (scan " \"\\uz").error = none ∧ joined (scan " \"\\uz").tokens = " \" uz" ∧
      joined (scan " \"\\uz").tokens ≠ " \"\\uz" := by
  decide +kernel

end Token

end FilterShell
