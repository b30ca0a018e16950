import FilterShell.Proofs.Filter.Places
import FilterShell.Proofs.Filter.Reading
import FilterShell.Proofs.Json.Reading
import FilterShell.Session.Shell

/-!
# How reading fails

The shell answers errors of syntax with a message and goes on, while any other error ends it.
`FailsBySyntax` says that a computation fails in no other way, and goes through each part of the reader:
atoms and operators (`Operators.pass_fails`), one group (`Bracket.group_fails`), the groups of a program
(`Bracket.pass_fails`), and programs (`Filter.ofItems_fails`).  Only remembered places can be wrong,
and `placesHold` excludes it.
-/

namespace FilterShell

/-- The error is one of syntax: something stands where it may not stand, or is missing. -/
def ParseError.isSyntax : ParseError → Bool
  | .illegal .. | .unclosed _ | .mismatched | .wrongCloser .. | .noOperand .. | .leftover _ => true
  | _ => false

/-- If the computation fails, then by an error of syntax. -/
def FailsBySyntax {α : Type} (x : Except ParseError α) : Prop := ∀ e, x = .error e → e.isSyntax

section

variable {α β : Type}

theorem FailsBySyntax.ok (a : α) : FailsBySyntax (.ok a) := fun _ h => by cases h

theorem FailsBySyntax.error {e : ParseError} (h : e.isSyntax) :
    FailsBySyntax (.error e : Except ParseError α) := by
  rintro _ ⟨⟩
  exact h

theorem FailsBySyntax.andThen {x : Except ParseError α} {next : α → Except ParseError β}
    (hx : FailsBySyntax x) (hnext : ∀ a, x = .ok a → FailsBySyntax (next a)) :
    FailsBySyntax (x >>= next) := by
  cases x with
  | error e => exact fun _ h => hx _ (by cases h; rfl)
  | ok a => exact hnext a rfl

instance (x : Except ParseError α) : Decidable (FailsBySyntax x) :=
  match x with
  | .ok a    => .isTrue (.ok a)
  | .error e => decidable_of_iff e.isSyntax ⟨.error, fun h => h e rfl⟩

end

theorem FailsBySyntax.check (f : Filter) : FailsBySyntax (Permissions.everything.check f) :=
  .ok f

namespace Operators

/-- Scanned tokens are atoms, unless a number is too long. -/
theorem atom?_succeeds {t : Token} (ht : t.Regular) (hfits : t.Fits)
    {a : Except ParseError Filter} (ha : atom? t = some a) : FailsBySyntax a := by
  unfold atom? at ha
  split at ha
  · cases ha
    exact .ok _
  · cases ha
    exact .ok _
  · cases ha
    exact .ok _
  · cases ha
    exact .ok _
  · rename_i w hk hw
    obtain ⟨w', hw', hne, hdigits⟩ : ∃ w, t.text = some w ∧ w ≠ [] ∧ ∀ r ∈ w, r.isDigit := by
      simpa [Token.Regular, hk] using ht
    obtain rfl : w = w' := Option.some.inj (hw.symm.trans hw')
    rw [Decimal.read?_digits hne hdigits, if_pos (hfits w hk hw)] at ha
    cases ha
    exact .ok _
  · rename_i hk hw
    simp [Token.Regular, hk, hw] at ht
  · cases ha

/-- Only a token that is no atom is refused. -/
theorem atoms_fails {items : List Item} (h : ∀ t, .token t ∈ items → t.Regular ∧ t.Fits) :
    FailsBySyntax (atoms .everything items) := by
  induction items with
  | nil => exact .ok _
  | cons x r ih =>
    have hr := ih fun t ht => h t (List.mem_cons_of_mem _ ht)
    cases x with
    | token t =>
      obtain ⟨hregular, hfits⟩ := h t List.mem_cons_self
      refine hr.andThen fun done _ => ?_
      split
      · rename_i a ha
        refine (atom?_succeeds hregular hfits ha).andThen fun f _ => ?_
        exact (FailsBySyntax.check f).andThen fun _ _ => .ok _
      · exact .ok _
    | filter f => exact hr.andThen fun _ _ => .ok _
    | value => exact hr.andThen fun _ _ => .ok _

theorem unary_fails (items : List Item) : FailsBySyntax (unary .everything items) := by
  induction items with
  | nil => exact .ok _
  | cons x r ih =>
    cases x with
    | token t =>
      refine ih.andThen fun done _ => ?_
      split
      · exact .ok _
      · split
        · exact (FailsBySyntax.check _).andThen fun _ _ => .ok _
        · exact .error rfl
        · exact .error rfl
    | filter f => exact ih.andThen fun _ _ => .ok _
    | value => exact ih.andThen fun _ _ => .ok _

theorem applied_fails (fs : List Filter) : FailsBySyntax (applied .everything fs) := by
  unfold applied
  split
  · exact .ok _
  · exact .ok _
  · exact (FailsBySyntax.check _).andThen fun _ _ => .ok _

theorem rows_fails (row : List Filter) (items : List Item) :
    FailsBySyntax (rows .everything row items) := by
  fun_induction rows .everything row items with
  | case1 row => exact applied_fails row
  | case2 row f r ih => exact ih
  | case3 row x r hx ih =>
    exact ih.andThen fun _ _ => (applied_fails row).andThen fun _ _ => .ok _

theorem operand_fails (f : Option Filter) : FailsBySyntax (operand .everything f) := by
  cases f with
  | none => exact .check _
  | some f => exact .ok f

theorem sweep_fails (node : Token.Kind → Option (Filter → Filter → Filter))
    (done items : List Item) : FailsBySyntax (sweep .everything node done items) := by
  fun_induction sweep .everything node done items with
  | case1 done => exact .ok _
  | case2 done r f ih => exact ih
  | case3 done r ih => exact ih
  | case4 done r t hnode ih => exact ih
  | case5 done t make _ behind done' _ ahead r ih =>
    exact (operand_fails behind).andThen fun f _ => ih f
  | case6 done t make _ behind done' _ r _ ih =>
    exact (operand_fails none).andThen fun ahead _ => (operand_fails behind).andThen fun f _ =>
      ih ahead f

theorem leftward_fails (kind : Token.Kind) (op : Operator) (items : List Item) :
    FailsBySyntax (leftward .everything kind op items) := sweep_fails _ _ _

theorem rightward_fails (kind : Token.Kind) (op : Operator) (items : List Item) :
    FailsBySyntax (rightward .everything kind op items) :=
  (sweep_fails _ _ _).andThen fun _ _ => .ok _

theorem pass_fails (items : List Item) : FailsBySyntax (pass .everything items) :=
  (unary_fails items).andThen fun items _ =>
  (leftward_fails _ _ items).andThen fun items _ =>
  (rows_fails [] items).andThen fun items _ =>
  (leftward_fails _ _ items).andThen fun items _ =>
  (leftward_fails _ _ items).andThen fun items _ =>
  (leftward_fails _ _ items).andThen fun items _ =>
  (leftward_fails _ _ items).andThen fun items _ =>
  (leftward_fails _ _ items).andThen fun items _ =>
  (rightward_fails _ _ items).andThen fun items _ => leftward_fails _ _ items

end Operators

namespace Bracket

/-! ### One group -/

/-- `R` fails by errors of syntax, up to a length, on scanned tokens whose places hold. -/
def ReaderFails (n : Nat) (R : List Item → Except ParseError Filter) : Prop :=
  ∀ ts : List Token, ts.length < n → (∀ t ∈ ts, t.isPlain ∧ t.Regular ∧ t.Fits) → placesHold ts →
    FailsBySyntax (R (ts.map .token))

variable {n : Nat} {R : List Item → Except ParseError Filter}

theorem readClauses_fails {cs : List (Clause n)} (h : ∀ c ∈ cs, FailsBySyntax (R c.items)) :
    FailsBySyntax (readClauses (fun items _ => R items) cs) := by
  induction cs with
  | nil => exact .ok _
  | cons c cs ih =>
    obtain ⟨hc, hcs⟩ := List.forall_mem_cons.1 h
    exact hc.andThen fun _ _ => (ih hcs).andThen fun _ _ => .ok _

/-- A group fails by its parts, or by its closer. -/
theorem group_fails (hR : ReaderFails n R) {i stop : Nat} {t c : Token} {pending : List Token}
    {done : List Item} {stale places : List Nat}
    {hlen : (pending.map Item.token ++ .token c :: done).length < n}
    (hn : ∀ words, ∃ segment cs, Noted words stop pending places segment cs)
    (hi : i + pending.length + 1 = stop)
    (hgood : ∀ u ∈ pending, u.isPlain ∧ u.Regular ∧ u.Fits) (hhold : placesHold pending)
    (hstale : t.clauseWords?.isSome → stale = []) :
    FailsBySyntax (group (fun items _ => R items) i stop t
      (pending.map .token ++ .token c :: done) hlen (stale ++ places)) := by
  have hlen' : pending.length < n := by
    simp only [List.length_append, List.length_map] at hlen
    omega
  have hread : ∀ part : List Token, part <:+: pending → FailsBySyntax (R (part.map .token)) :=
    fun part hpart => hR part (Nat.lt_of_le_of_lt hpart.length_le hlen')
      (fun u hu => hgood u (hpart.subset hu)) (placesHold_within hpart hhold)
  unfold group
  split
  · rename_i words word hw ht
    obtain rfl := hstale (Option.isSome_of_eq_some hw)
    obtain ⟨segment, cs, hnoted⟩ := hn words
    rw [List.nil_append, clauseStarts_ok (hnoted.token_at hi _)]
    refine FailsBySyntax.andThen (.ok _) fun starts hstarts => ?_
    obtain rfl := Except.ok.inj hstarts
    refine (readClauses_fails fun c' hc' => ?_).andThen fun _ _ => .ok _
    have hspan : (c'.word, c'.items) ∈ (word, segment.map Item.token) ::
        cs.map fun c => (c.1.text.getD [], c.2.map Item.token) := by
      rw [← spans_noted hnoted hi, ← clauses_spans hlen]
      exact List.mem_map_of_mem hc'
    obtain ⟨hsegment, hcs⟩ := hnoted.segments_within
    rcases List.mem_cons.1 hspan with hspan | hspan
    · rw [(Prod.mk.inj hspan).2]
      exact hread _ hsegment
    · obtain ⟨x, hx, hspan⟩ := List.mem_map.1 hspan
      rw [← (Prod.mk.inj hspan).2]
      exact hread _ (hcs x hx)
  · rw [getElem?_closer hi]
    dsimp only
    split
    · rw [between_whole hi]
      exact (hread _ (List.infix_refl _)).andThen fun _ _ => .ok _
    · exact .error rfl

/-! ### Every token -/

/-- Places that are remembered from another group belong to groups in `right`, behind the visited
group, if that group does not end with `end`. -/
def Recalls (depth stop : Nat) (names : List Nat) (ahead right : List Token) : Prop :=
  ∀ q ∈ names, depth = 0 ∨ stop < q →
    namesInside 0 right ∧ ∀ c, ahead.getLast? = some c → c.isName Token.endWord = false

section Step

variable {k depth stop : Nat} {t : Token} {after done : List Item} {names : List Nat}
  {ahead right : List Token}

theorem Recalls.cons (hahead : ahead ≠ []) (h : Recalls depth stop names ahead right) {d : Nat}
    (hd : d ≠ 0) : Recalls d stop names (t :: ahead) right := by
  rintro q hq (rfl | hstop)
  · exact absurd rfl hd
  · obtain ⟨hright, hlast⟩ := h q hq (.inr hstop)
    refine ⟨hright, fun c hc => hlast c ?_⟩
    rwa [List.getLast?_cons_of_ne_nil hahead] at hc

theorem Reading.ahead_ne_nil (h : Reading k after (depth + 1) stop names ahead done) :
    ahead ≠ [] := by
  cases h
  simp

/-- What is remembered when a group is entered. -/
theorem Recalls.closes (hr : Reading (k + 1) after depth stop names ahead done)
    (h : Recalls depth stop names ahead right) :
    Recalls (depth + 1) (if depth = 0 then k else stop)
      (if depth = 0 ∧ t.isName Token.endWord then [] else names) (t :: ahead) right := by
  cases depth with
  | zero =>
    obtain ⟨hn⟩ | _ := hr
    intro q hq _
    by_cases hend : t.isName Token.endWord
    · simp [hend] at hq
    · obtain ⟨hright, -⟩ := h q (by simpa [hend] using hq) (.inl rfl)
      exact ⟨hright, by simpa using hend⟩
  | succ depth => simpa using h.cons hr.ahead_ne_nil (Nat.succ_ne_zero _)

theorem Recalls.name (hr : Reading (k + 1) after 1 stop names ahead done)
    (h : Recalls 1 stop names ahead right) :
    Recalls 1 stop (names ++ [k]) (t :: ahead) right := by
  rintro q hq (h0 | hstop)
  · cases h0
  · have hk : k < stop := by
      obtain _ | @⟨_, _, c, pending, _, stale, own, hc, rfl, hstale, hn⟩ := hr
      omega
    have hq : q ∈ names := by
      rcases List.mem_append.1 hq with hq | hq
      · exact hq
      · simp only [List.mem_singleton] at hq
        omega
    exact h.cons hr.ahead_ne_nil Nat.one_ne_zero q hq (.inr hstop)

section Group

variable {c : Token} {pending segment : List Token} {stale own : List Nat}
  {cs : List (Token × List Token)} (h : Recalls 1 stop (stale ++ own) (pending ++ [c]) right)
  (hstale : ∀ q ∈ stale, stop < q) (hn : Noted [] stop pending own segment cs) (hc : c.closes)

include h hstale hn hc

/-- A keyword group has nothing left over to take for the start of a clause. -/
theorem Recalls.fresh (hhold : placesHold (t :: (pending ++ c :: right)))
    (hword : t.clauseWords?.isSome) : stale = [] := by
  rw [List.eq_nil_iff_forall_not_mem]
  intro q hq
  obtain ⟨hinside, hlast⟩ := h q (List.mem_append_left _ hq) (.inr (hstale q hq))
  have hend := hlast c (by simp)
  rw [placesHold, closer?_balanced hn.balanced, behind_balanced hn.balanced] at hhold
  simp [closer?, behind, hc, hinside, hend, Option.isSome_iff_ne_none.1 hword] at hhold

/-- What is kept of a complete group has its names in the group, or behind it. -/
theorem Recalls.group (hop : t.opens) {kept : List Nat} (hkept : ∀ q ∈ kept, q ∈ stale ++ own) :
    Recalls 0 stop kept [] (t :: (pending ++ c :: right)) := by
  intro q hq _
  refine ⟨?_, by simp⟩
  rcases List.mem_append.1 (hkept q hq) with hq | hq
  · obtain ⟨hinside, -⟩ := h q (List.mem_append_left _ hq) (.inr (hstale q hq))
    exact namesInside_group hop hc hn.balanced hinside
  · rw [namesInside_opens hop]
    exact hn.namesInside (List.ne_nil_of_mem hq) _

end Group

end Step

/-- **The reader fails by errors of syntax** on tokens whose places hold. -/
theorem pass_fails (hR : ReaderFails n R) {before ahead right : List Token} {after done : List Item}
    {h : before.length + after.length ≤ n} {depth stop : Nat} {names : List Nat}
    (hr : Reading before.length after depth stop names ahead done)
    (he : Recalls depth stop names ahead right)
    (hgood : ∀ t ∈ before.reverse ++ ahead, t.isPlain ∧ t.Regular ∧ t.Fits)
    (hhold : placesHold (before.reverse ++ (ahead ++ right))) :
    FailsBySyntax (pass .everything (fun items _ => R items) before after h depth stop names) := by
  induction before generalizing after depth stop names ahead done right with
  | nil =>
    cases hr with
    | outside => exact .ok _
    | inside => exact .error rfl
  | cons t before ih =>
    have h' : before.length + (Item.token t :: after).length ≤ n := by
      simp only [List.length_cons] at h ⊢
      omega
    rw [List.reverse_cons, List.append_assoc, List.singleton_append] at hgood hhold
    by_cases hcl : t.closes
    · rw [pass_closes (b := h') hcl]
      exact ih (hr.closes hcl) (he.closes hr) hgood hhold
    by_cases hop : t.opens
    · rcases depth with _ | _ | depth
      · rw [pass]
        simp only [hcl, hop, Bool.false_eq_true, if_false, if_true]
        exact .error rfl
      · -- the group is complete
        obtain _ | @⟨_, _, c, pending, _, stale, own, hc, hstop, hstale, ⟨hn⟩⟩ := hr
        have hi : before.length + pending.length + 1 = stop := by
          simp only [List.length_cons] at hstop
          omega
        obtain ⟨_, _, hnoted⟩ := hn []
        simp only [List.append_assoc, List.singleton_append] at hgood hhold
        have hbehind := placesHold_right hhold
        have hpending : placesHold pending :=
          placesHold_within ⟨[t], c :: right, by simp⟩ hbehind
        rw [pass]
        simp only [hcl, hop, Bool.false_eq_true, if_false, if_true]
        refine (group_fails hR hn hi (fun u hu => hgood u (by simp [hu])) hpending
          (he.fresh hstale hnoted hc hbehind)).andThen fun grouped hg => ?_
        obtain ⟨f, kept⟩ := grouped
        refine (FailsBySyntax.check f).andThen fun g hgf => ?_
        have hkept := group_kept hg
        refine ih (.complete hnoted hi hstale hkept) (he.group hstale hnoted hc hop hkept)
          (fun u hu => hgood u ?_) (by simpa using hhold)
        exact List.mem_append_left _ (by simpa using hu)
      · rw [pass_opens (b := h') hop]
        exact ih (hr.opens hop) (he.cons hr.ahead_ne_nil (Nat.succ_ne_zero _)) hgood hhold
    have hflat : t.isFlat := by simp [Token.isFlat, hcl, hop]
    by_cases hname : depth = 1 ∧ t.kind = .name
    · obtain ⟨rfl, hk⟩ := hname
      rw [pass_name (b := h') hflat hk]
      exact ih (hr.name hflat hk) (he.name hr) hgood hhold
    · rw [pass_flat (b := h') hflat hname]
      cases depth with
      | zero =>
        obtain ⟨hn⟩ | _ := hr
        have hrecalls : Recalls 0 stop names [] (t :: right) := by
          intro q hq h0
          obtain ⟨hinside, hlast⟩ := he q hq h0
          exact ⟨by rwa [namesInside_flat hflat], hlast⟩
        refine ih (.outside fun q hq => Nat.le_of_lt (hn q hq)) hrecalls (fun u hu => ?_) hhold
        exact hgood u (List.mem_append_left _ (by simpa using hu))
      | succ depth =>
        exact ih (hr.flat hflat hname) (he.cons hr.ahead_ne_nil (Nat.succ_ne_zero _)) hgood hhold

end Bracket

instance (t : Token) : Decidable t.Fits :=
  decidable_of_iff (t.kind = .number → ∀ w ∈ t.text,
      Decimal.digits (Decimal.natOf w) ≤ 1000000000000000000)
    ⟨fun h w hk hw => h hk w hw, fun h hk w hw => h w hk hw⟩

theorem Token.fits_congr {t u : Token} (h : t.mark = u.mark) : t.Fits ↔ u.Fits := by
  obtain ⟨hk, ht⟩ := Prod.mk.inj h
  simp only [Fits, hk, ht]

namespace Filter

open FilterShell.Bracket

variable {lines : Bool}

theorem legalTokens_fails (tokens : List Token) :
    FailsBySyntax (legalTokens lines (tokens.map .token)) := by
  induction tokens with
  | nil => exact .ok _
  | cons t tokens ih =>
    simp only [List.map_cons, legalTokens]
    split
    · exact .error rfl
    · exact ih.andThen fun _ _ => .ok _

theorem single_fails (items : List Item) : FailsBySyntax (single items) := by
  unfold single
  split
  · exact .ok _
  · exact .error rfl

/-- What is left when the tokens of a program are known. -/
theorem ofItems_fails_of {tokens : List Token}
    (hmerge : ∀ legal, tokens.filter (fun t => t.kind ≠ .comment) = legal →
      (∀ t ∈ legal, t.kind ≠ .illegal) → ∃ merged, mergeTrailing legal = .ok merged ∧
        ∀ h, FailsBySyntax (Bracket.pass (n := merged.length) .everything
            (fun inner _ => ofItems .everything lines inner) merged.reverse [] h 0 0 [] >>=
          fun grouped => Operators.atoms .everything grouped >>= Operators.pass .everything)) :
    FailsBySyntax (ofItems .everything lines (tokens.map .token)) := by
  have hvalue : (tokens.map Item.token).any Item.isValue = false := by
    simp [List.any_eq_false, Item.isValue]
  rw [ofItems, hvalue, if_neg Bool.false_ne_true]
  split
  · rename_i e he
    rw [filter_map_token] at he
    exact .error (legalTokens_fails _ e he)
  · rename_i legal hlegal
    rw [filter_map_token, legalTokens_ok] at hlegal
    obtain ⟨merged, hmerged, hrest⟩ := hmerge legal (token_map_injective hlegal.1) hlegal.2
    split
    · simp_all
    · exact .ok _
    · rename_i t ts hts
      obtain rfl : merged = t :: ts := Except.ok.inj (hmerged.symm.trans hts)
      have hsingle := (hrest (by simp)).andThen fun items _ => single_fails items
      simpa only [bind_assoc] using hsingle

/-- One level of reading, when the levels below are known. -/
theorem level_fails {ts : List Token} (hR : ReaderFails ts.length (ofItems .everything lines))
    (hgood : ∀ t ∈ ts, t.isPlain ∧ t.Regular ∧ t.Fits) (hhold : placesHold ts)
    (h : ts.reverse.length + ([] : List Item).length ≤ ts.length) :
    FailsBySyntax (Bracket.pass .everything (fun inner _ => ofItems .everything lines inner)
        ts.reverse [] h 0 0 [] >>=
      fun grouped => Operators.atoms .everything grouped >>= Operators.pass .everything) := by
  have hstart : Bracket.Reading ts.reverse.length [] 0 0 [] [] [] := .outside (by simp)
  have hrecalls : Recalls 0 0 [] [] [] := fun q hq => by cases hq
  refine (Bracket.pass_fails hR hstart hrecalls (by simpa using hgood)
    (by simpa using hhold)).andThen fun grouped hg => ?_
  obtain ⟨items, hitems, rfl⟩ := pass_sound (ofItems_sound _) hstart
    (by simpa using fun t ht => (hgood t ht).1) (by simp) hg
  simp only [List.reverse_reverse, List.append_nil] at hitems ⊢
  have hbuilt := hitems.builtFrom hgood
  exact (Operators.atoms_fails fun t ht => (hbuilt _ ht).2).andThen fun done _ =>
    Operators.pass_fails done

/-- **The reader fails by errors of syntax** on plain tokens whose places hold. -/
theorem ofItems_fails (n : Nat) : ReaderFails n (ofItems .everything lines) := by
  induction n with
  | zero => exact fun _ h => absurd h (Nat.not_lt_zero _)
  | succ n ih =>
    intro ts hn hgood hhold
    have hR : ReaderFails ts.length (ofItems .everything lines) := fun ts' h =>
      ih ts' (Nat.lt_of_lt_of_le h (Nat.le_of_lt_succ hn))
    have hplain : ∀ t ∈ ts, t.isPlain := fun t ht => (hgood t ht).1
    refine ofItems_fails_of fun legal hlegal _ => ⟨ts, ?_, level_fails hR hgood hhold⟩
    rw [← hlegal, List.filter_eq_self.2, mergeTrailing_plain hplain]
    intro t ht
    have := hplain t ht
    simp_all [Token.isPlain]

/-! ### Sources -/

/-- **Reading a source fails by syntax only.** -/
theorem ofSource_fails {source : Text} (hscan : (Token.scan source).error = none)
    (hfits : ∀ t ∈ (Token.scan source).tokens, t.Fits)
    (hhold : placesHold (Token.significant source)) :
    FailsBySyntax (ofSource .everything lines source) := by
  unfold ofSource
  simp only [hscan]
  refine ofItems_fails_of fun legal hlegal hkinds => ?_
  subst hlegal
  obtain ⟨hregular, hpair⟩ := Token.scan_regular source
  obtain ⟨merged, hm⟩ := mergeTrailing_succeeds fun t ht =>
    Token.scan_source source t (List.mem_of_mem_filter ht)
  have hmarks : merged.map Token.mark = (Token.significant source).map Token.mark :=
    marks_merged hm
  have hgood : ∀ t ∈ merged, t.isPlain ∧ t.Regular ∧ t.Fits := by
    refine forall_of_marks (fun hmark hu => ?_) hmarks fun u hu => ?_
    · rwa [Token.isPlain_congr hmark, Token.regular_congr hmark, Token.fits_congr hmark]
    · have hmem := List.mem_of_mem_filter hu
      exact ⟨isPlain_of_significant hkinds hu, hregular u hmem, hfits u hmem⟩
  refine ⟨merged, hm, level_fails (ofItems_fails _) hgood ?_⟩
  rwa [placesHold_congr hmarks]

/-- An error of syntax is answered with a message. -/
theorem rejected_of_isSyntax {e : ParseError} (he : e.isSyntax) (place : String) :
    ∃ message, Session.rejected place e = .exit (some message) := by
  cases e with
  | illegal | unclosed | mismatched | wrongCloser | noOperand | leftover => exact ⟨_, rfl⟩
  | forbidden | unscannable | notToken | lostKeyword | badNumber | missingText => cases he

/-- **A program is read or has an error of syntax**, and the shell answers with a message, if the source
can be cut into tokens, no number is too long, and no keyword group that ends with a bracket is followed
at its level by a group with a name directly inside. -/
theorem ofSource_read_or_syntax (lines : Bool) (source : Text)
    (hscan : (Token.scan source).error = none)
    (hfits : ∀ t ∈ (Token.scan source).tokens, t.Fits)
    (hhold : placesHold (Token.significant source)) :
    (∃ f, ofSource .everything lines source = .ok f) ∨
      ∃ e, ofSource .everything lines source = .error e ∧ e.isSyntax ∧
        ∀ place, ∃ message, Session.rejected place e = .exit (some message) := by
  have hfails : FailsBySyntax (ofSource .everything lines source) := ofSource_fails hscan hfits hhold
  cases h : ofSource .everything lines source with
  | ok f => exact .inl ⟨f, rfl⟩
  | error e =>
    have he := hfails e h
    exact .inr ⟨e, rfl, he, rejected_of_isSyntax he⟩

/-- The theorem at a keyword group that ends with a bracket, with another group behind it, and with
brackets of different kinds inside. -/
theorem ofSource_read_or_syntax_crossed :
    (Token.scan "if a then (12] else b) [3]").error = none ∧
      (∀ t ∈ (Token.scan "if a then (12] else b) [3]").tokens, t.Fits) ∧
      placesHold (Token.significant "if a then (12] else b) [3]") ∧
      ((∃ f, ofSource .everything false "if a then (12] else b) [3]" = .ok f) ∨
        ∃ e, ofSource .everything false "if a then (12] else b) [3]" = .error e ∧ e.isSyntax ∧
          ∀ place, ∃ message, Session.rejected place e = .exit (some message)) := by
  have hscan : (Token.scan "if a then (12] else b) [3]").error = none := by decide +kernel
  have hfits : ∀ t ∈ (Token.scan "if a then (12] else b) [3]").tokens, t.Fits := by decide +kernel
  have hhold : placesHold (Token.significant "if a then (12] else b) [3]") := by decide +kernel
  exact ⟨hscan, hfits, hhold, ofSource_read_or_syntax false _ hscan hfits hhold⟩

/-- A place that is remembered from the group behind lies outside of the program. -/
theorem remembered_place_lost :
    (Token.scan "if ) ( a )").error = none ∧ (∀ t ∈ (Token.scan "if ) ( a )").tokens, t.Fits) ∧
      ∃ e, ofSource .everything false "if ) ( a )" = .error e ∧ e.isSyntax = false := by
  refine ⟨by decide +kernel, by decide +kernel, ?_⟩
  have hfails : ¬ FailsBySyntax (ofSource .everything false "if ) ( a )") := by decide +kernel
  simpa [FailsBySyntax] using hfails

end Filter

end FilterShell
