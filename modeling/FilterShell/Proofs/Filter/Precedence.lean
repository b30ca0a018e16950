import FilterShell.Proofs.Filter.Reading

/-!
# Precedence

The tree of a program reads as the tokens of the source, so no operand or operator is lost, doubled or moved;
and every operand stands where the order of the operators puts it.  A keyword group may end with any closer,
but it is always written with `end`, so the first half asks for that.
-/

namespace FilterShell

/-- A node that the reader makes has its operands where they belong. -/
theorem Built.fits {p : Permissions} {Q : Token → Prop} {f : Filter} (h : Built p Q f) : f.Fits := by
  cases h with
  | empty => trivial
  | @bracket k =>
    unfold Bracket.wrapped
    split <;> trivial
  | conditional => trivial
  | attempt => trivial
  | atom _ ha _ =>
    unfold Operators.atom? at ha
    split at ha <;> (try split at ha) <;> simp at ha <;> subst ha <;> trivial
  | @unary k node f hu hf _ =>
    unfold Operators.unary? at hu
    split at hu <;> simp at hu <;> subst hu <;> exact hf
  | row hf _ => exact hf
  | binary hf => exact hf

namespace Filter

/-- **Operators are read by precedence.**  If a program is read and each of its keyword groups ends
with `end`, then the tree reads as the tokens of the source, and every operand, at any depth, stands
where the order of the operators puts it. -/
theorem ofSource_precedence (p : Permissions) (lines : Bool) (source : Text) (f : Filter)
    (hread : ofSource p lines source = .ok f)
    (hend : Bracket.keywordsEnd (Token.significant source)) :
    f.marks = (Token.significant source).map Token.mark ∧ f.WellGrouped := by
  obtain ⟨ts, items, hmarks, hts, hg, hf⟩ := ofSource_sound hread
  have hregular : ∀ t ∈ ts, t.Regular := fun t ht => (hts t ht).2
  have hbuilt := hg.builtFrom hregular
  refine ⟨?_, fun n hn => (hf.allBuilt hg.within hbuilt n hn).fits⟩
  have hended := hg.ended ((Bracket.keywordsEnd_congr hmarks).trans hend)
  rw [hf.marks hg.within hbuilt, hended.marks hregular, hmarks]

/-- The same with operators of most groups, a row, and operands that are missing. -/
theorem ofSource_precedence_mixed :
    ∃ f, ofSource .everything false "try a.b 1+x*2| $y=; end" = .ok f ∧
      Bracket.keywordsEnd (Token.significant "try a.b 1+x*2| $y=; end") ∧
      f.marks = (Token.significant "try a.b 1+x*2| $y=; end").map Token.mark ∧ f.WellGrouped := by
  have hok : (ofSource .everything false "try a.b 1+x*2| $y=; end").isOk := by decide +kernel
  have hend : Bracket.keywordsEnd (Token.significant "try a.b 1+x*2| $y=; end") := by
    decide +kernel
  obtain ⟨f, hread⟩ := exists_of_isOk hok
  exact ⟨f, hread, hend, ofSource_precedence _ _ _ f hread hend⟩

end Filter

end FilterShell
