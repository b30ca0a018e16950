import FilterShell.Proofs.Filter.Alike
import FilterShell.Proofs.Filter.Printed
import FilterShell.Proofs.Filter.Reading

/-!
# Printed programs are read back

A filter is printed without adding parentheses.  Still, what was read and printed is read back as the
same tree (`Filter.ofSource_text`): the printed text is cut into tokens with the marks of the tree
(`Filter.text_written`), these are grouped as those of the first reading were, with `end` for the closers of
keyword groups (`Grouped.reread`), and the operators make the same of them (`Finished.alike`).
-/

namespace FilterShell

namespace Token

variable {t u : Token}

theorem isFlat_congr (h : t.mark = u.mark) : t.isFlat = u.isFlat := by
  simp [isFlat, opens_congr h, closes_congr h]

theorem startsClause_congr {words : List Text} (h : t.mark = u.mark) :
    t.StartsClause words ↔ u.StartsClause words := by
  obtain ⟨hk, ht⟩ := Prod.mk.inj h
  simp only [StartsClause, hk, ht]

end Token

namespace Bracket

variable {p : Permissions}

/-! ### Groups -/

/-- Items that are alike have the same words among them. -/
theorem not_startsClause_alike {words : List Text} {a b : List Item}
    (h : List.Forall₂ Item.Alike a b) (ha : ∀ u, .token u ∈ a → ¬ u.StartsClause words) :
    ∀ u, .token u ∈ b → ¬ u.StartsClause words := by
  induction h with
  | nil => simp
  | @cons x y a b hx _ ih =>
    intro u hu
    rcases List.mem_cons.1 hu with hu | hu
    · cases hu
      obtain ⟨ht⟩ := hx
      rw [← Token.startsClause_congr ht]
      exact ha _ List.mem_cons_self
    · exact ih (fun v hv => ha v (List.mem_cons_of_mem _ hv)) u hu

theorem keywordFilter_congr {o o' : Token} (h : o.mark = o'.mark) (clauses : List (Text × Filter)) :
    keywordFilter o clauses = keywordFilter o' clauses := by
  simp [keywordFilter, Token.isName_congr h]

mutual

/-- Tokens with the marks of grouped items are grouped alike, with `end` for every closer of a keyword
group. -/
theorem Grouped.reread {ts : List Token} {items : List Item} :
    Grouped p anyCloser ts items → (∀ t ∈ ts, t.Regular) → ∀ us : List Token,
      us.map Token.mark = items.flatMap Item.marks →
      ∃ items', Grouped p endOnly us items' ∧ List.Forall₂ Item.Alike items items'
  | .nil, _, us, h => by
    obtain rfl : us = [] := by simpa using h
    exact ⟨[], .nil, .nil⟩
  | @Grouped.flat _ _ t r items ht hr, hq, us, h => by
    obtain ⟨u, us, rfl, hu, hus⟩ := List.map_eq_cons_iff.1 h
    obtain ⟨items', hg, ha⟩ := hr.reread (List.forall_mem_cons.1 hq).2 us hus
    exact ⟨.token u :: items', .flat (by rwa [Token.isFlat_congr hu]) hg,
      .cons (.token hu.symm) ha⟩
  | @Grouped.bracket _ _ o c inside r inner items body hc hi hb hp hr, hq, us, h => by
    simp only [List.forall_mem_cons, List.forall_mem_append] at hq
    obtain ⟨hqo, hqi, hqc, hqr⟩ := hq
    have hbody := hb.marks hi.within (hi.builtFrom hqi)
    simp only [List.flatMap_cons, Item.marks, marks_wrapped hc hqo hqc, hbody, List.cons_append,
      List.append_assoc, List.nil_append] at h
    obtain ⟨o', us, rfl, ho', h⟩ := List.map_eq_cons_iff.1 h
    obtain ⟨inside', us, rfl, hinside, h⟩ := List.map_eq_append_iff.1 h
    obtain ⟨c', r', rfl, hc', hr'⟩ := List.map_eq_cons_iff.1 h
    obtain ⟨inner', hgi, hai⟩ := hi.reread hqi inside' hinside
    obtain ⟨items', hgr, har⟩ := hr.reread hqr r' hr'
    have hok : o'.kind = o.kind := (Prod.mk.inj ho').1
    have hck : c'.kind = c.kind := (Prod.mk.inj hc').1
    rw [← hok, ← hck] at hc
    rw [← hok] at hp ⊢
    exact ⟨_, .bracket hc hgi (hb.alike hai) hp hgr, .cons (.filter _) har⟩
  | @Grouped.keyword _ _ o c words inside r items clauses ho hc he hi hp hr, hq, us, h => by
    simp only [List.forall_mem_cons, List.forall_mem_append] at hq
    obtain ⟨-, hqi, -, hqr⟩ := hq
    simp only [List.flatMap_cons, Item.marks, marks_keywordFilter, List.append_assoc,
      List.cons_append, List.nil_append] at h
    obtain ⟨front, us, rfl, hfront, h⟩ := List.map_eq_append_iff.1 h
    obtain ⟨c', r', rfl, hc', hr'⟩ := List.map_eq_cons_iff.1 h
    obtain ⟨o', inside', rfl, ho', hclauses⟩ :=
      hi.reread (Token.name_of_clauseWords ho).1 hqi front hfront
    obtain ⟨items', hgr, har⟩ := hr.reread hqr r' hr'
    -- whatever closed the group at first, `end` was printed
    have hend : c'.isName Token.endWord = true := by
      obtain ⟨hk, ht⟩ := Prod.mk.inj hc'
      simp [Token.isName, hk, ht]
    rw [← Token.clauseWords?_congr ho'] at ho
    rw [← keywordFilter_congr ho'] at hp ⊢
    exact ⟨_, .keyword ho (Token.closes_of_isName_end hend) hend hclauses hp hgr,
      .cons (.filter _) har⟩

/-- Clauses are read again by their marks. -/
theorem Clauses.reread {words : List Text} {t : Token} {ts : List Token}
    {clauses : List (Text × Filter)} :
    Clauses p anyCloser words t ts clauses → t.kind = .name → (∀ u ∈ ts, u.Regular) →
      ∀ us : List Token, us.map Token.mark = Filter.clauseMarks clauses →
      ∃ u us', us = u :: us' ∧ u.mark = t.mark ∧ Clauses p endOnly words u us' clauses
  | @Clauses.last _ _ _ _ w segment items f ht hs hw hf, hk, hq, us, h => by
    have hbody := hf.marks hs.within (hs.builtFrom hq)
    simp only [Filter.clauseMarks, List.append_nil, hbody] at h
    obtain ⟨u, us, rfl, hu, hus⟩ := List.map_eq_cons_iff.1 h
    obtain ⟨items', hg, ha⟩ := hs.reread hq us hus
    refine ⟨u, us, rfl, by rw [hu, Token.mark, hk, ht], ?_⟩
    exact .last (Prod.mk.inj hu).2 hg (not_startsClause_alike ha hw) (hf.alike ha)
  | @Clauses.cons _ _ _ _ v w segment r items f clauses ht hs hw hf hv hr, hk, hq, us, h => by
    simp only [List.forall_mem_cons, List.forall_mem_append] at hq
    obtain ⟨hqs, -, hqr⟩ := hq
    have hbody := hf.marks hs.within (hs.builtFrom hqs)
    simp only [Filter.clauseMarks, List.cons_append, hbody] at h
    obtain ⟨u, us, rfl, hu, h⟩ := List.map_eq_cons_iff.1 h
    obtain ⟨segment', rest, rfl, hsegment, hrest⟩ := List.map_eq_append_iff.1 h
    obtain ⟨v', r', rfl, hv', hclauses⟩ := hr.reread hv.1 hqr rest hrest
    obtain ⟨items', hg, ha⟩ := hs.reread hqs segment' hsegment
    refine ⟨u, _, rfl, by rw [hu, Token.mark, hk, ht], ?_⟩
    exact .cons (Prod.mk.inj hu).2 hg (not_startsClause_alike ha hw) (hf.alike ha)
      ((Token.startsClause_congr hv').2 hv) hclauses

end

end Bracket

namespace Filter

variable {p : Permissions} {lines : Bool} {source : Text} {f : Filter}

theorem significant_narrow (h : source.Narrow) : ∀ t ∈ Token.significant source, t.Narrow :=
  fun t ht => Token.scan_narrow h t (List.mem_filter.1 ht).1

/-- **A filter that was read and printed is read back.**  No text is missing from it, and reading the
text gives the same tree.  In strings, an escape names characters up to `0xFFFF` only. -/
theorem ofSource_text (hs : ∀ r ∈ source, r.code < 0x10000)
    (h : ofSource p lines source = .ok f) :
    f.text? = some f.text ∧ ofSource p lines f.text = .ok f := by
  obtain ⟨ts, items, hmarks, hall, hg, hf⟩ := ofSource_sound h
  have hnarrow : ∀ t ∈ ts, t.Narrow :=
    forall_of_marks (fun hmark hu w hw => hu w ((Prod.mk.inj hmark).2.symm.trans hw)) hmarks
      (significant_narrow hs)
  have hregular : ∀ t ∈ ts, t.Regular := fun t ht => (hall t ht).2
  have hgood : ∀ t ∈ ts, t.Regular ∧ t.Narrow := fun t ht => ⟨hregular t ht, hnarrow t ht⟩
  have hreadable : ∀ n ∈ f.nodes, n.Readable := fun n hn =>
    (hf.allBuilt hg.within (hg.builtFrom hgood) n hn).readable
  have hread : f.marks = items.flatMap Item.marks := hf.marks hg.within (hg.builtFrom hregular)
  refine ⟨by simp [text?, isWritten_of_readable f hreadable], ?_⟩
  refine ofSource_complete (Token.scan_written (text_written hreadable)) fun us hus hplain => ?_
  obtain ⟨items', hgroups, halike⟩ := hg.reread hregular us (hus.trans hread)
  exact readAs_grouped (ofItems_complete _) hplain hgroups (hf.alike halike)

/-- The same with a string, a keyword group, a row, and operands that are missing. -/
theorem ofSource_text_mixed :
    ∃ f, ofSource .everything false "!a . \"\\tb\" 1|if(;)then,end" = .ok f ∧
      f.text? = some f.text ∧ ofSource .everything false f.text = .ok f := by
  have hok : (ofSource .everything false "!a . \"\\tb\" 1|if(;)then,end").isOk := by
    decide +kernel
  obtain ⟨f, hread⟩ := exists_of_isOk hok
  exact ⟨f, hread, ofSource_text (by decide) hread⟩

end Filter

end FilterShell
