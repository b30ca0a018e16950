import FilterShell.Proofs.Filter.Derivation
import Mathlib.Data.List.Forall2

/-!
# Items that are alike

The reader of operators looks at the kind and the text of tokens, and never at their place.  So items with
equal filters and equal marks are read alike (`pass_alike`).  When only one filter is left, it is the same on
both sides (`Finished.alike`).
-/

namespace FilterShell

/-- The same filters, or tokens with the same mark. -/
inductive Item.Alike : Item → Item → Prop
  | token {t u : Token} (h : t.mark = u.mark) : Alike (.token t) (.token u)
  | filter (f : Filter) : Alike (.filter f) (.filter f)
  | value : Alike .value .value

namespace Operators

open Item (Alike)

/-- If the first computation gives items, the second gives items that are alike. -/
def Follows (x y : Except ParseError (List Item)) : Prop :=
  ∀ out, x = .ok out → ∃ out', y = .ok out' ∧ List.Forall₂ Alike out out'

theorem Follows.done {a b : List Item} (h : List.Forall₂ Alike a b) :
    Follows (pure a) (pure b) := by
  rintro _ ⟨⟩
  exact ⟨b, rfl, h⟩

/-- Both computations go on from items that are alike. -/
theorem Follows.andThen {x y : Except ParseError (List Item)}
    {f g : List Item → Except ParseError (List Item)} (h : Follows x y)
    (hfg : ∀ a b, List.Forall₂ Alike a b → Follows (f a) (g b)) : Follows (x >>= f) (y >>= g) := by
  intro out hout
  obtain ⟨a, ha, hout⟩ := andThen_ok.1 hout
  obtain ⟨b, hb, hab⟩ := h a ha
  obtain ⟨out', hout', halike⟩ := hfg a b hab out hout
  exact ⟨out', andThen_ok.2 ⟨b, hb, hout'⟩, halike⟩

/-- Both computations go on from the same result. -/
theorem Follows.same {α : Type} {x : Except ParseError α}
    {f g : α → Except ParseError (List Item)} (hfg : ∀ a, Follows (f a) (g a)) :
    Follows (x >>= f) (x >>= g) := by
  intro out hout
  obtain ⟨a, ha, hout⟩ := andThen_ok.1 hout
  obtain ⟨out', hout', halike⟩ := hfg a out hout
  exact ⟨out', andThen_ok.2 ⟨a, ha, hout'⟩, halike⟩

theorem alike_refl (items : List Item) : List.Forall₂ Alike items items := by
  refine List.forall₂_same.2 fun x _ => ?_
  cases x with
  | token => exact .token rfl
  | filter f => exact .filter f
  | value => exact .value

theorem Follows.refl (x : Except ParseError (List Item)) : Follows x x := fun out h =>
  ⟨out, h, alike_refl out⟩

variable {p : Permissions} {a b : List Item}

theorem atom?_congr {t u : Token} (h : t.mark = u.mark) : atom? t = atom? u := by
  obtain ⟨hk, ht⟩ := Prod.mk.inj h
  simp only [atom?, hk, ht]

/-- Atoms are made by kind and text. -/
theorem atoms_alike (h : List.Forall₂ Alike a b) : Follows (atoms p a) (atoms p b) := by
  induction h with
  | nil => exact .done .nil
  | @cons x y r s hx hr ih =>
    cases hx with
    | @token t u ht =>
      refine ih.andThen fun c d hcd => ?_
      rw [← atom?_congr ht]
      split
      · exact .same fun f => .same fun g => .done (.cons (.filter g) hcd)
      · exact .done (.cons (.token ht) hcd)
    | filter f => exact ih.andThen fun c d hcd => .done (.cons (.filter f) hcd)
    | value => exact ih.andThen fun c d hcd => .done (.cons .value hcd)

theorem unary_alike (h : List.Forall₂ Alike a b) : Follows (unary p a) (unary p b) := by
  induction h with
  | nil => exact .done .nil
  | @cons x y r s hx hr ih =>
    cases hx with
    | @token t u ht =>
      refine ih.andThen fun c d hcd => ?_
      rw [← (Prod.mk.inj ht).1]
      split
      · exact .done (.cons (.token ht) hcd)
      · cases hcd with
        | nil => exact nofun
        | cons hx hr =>
          cases hx with
          | token => exact nofun
          | filter f => exact .same fun g => .done (.cons (.filter g) hr)
          | value => exact nofun
    | filter f => exact ih.andThen fun c d hcd => .done (.cons (.filter f) hcd)
    | value => exact ih.andThen fun c d hcd => .done (.cons .value hcd)

/-- Rows are found by where filters stand. -/
theorem rows_alike (h : List.Forall₂ Alike a b) (row : List Filter) :
    Follows (rows p row a) (rows p row b) := by
  induction h generalizing row with
  | nil => exact .refl _
  | @cons x y r s hx hr ih =>
    cases hx with
    | @token t u ht =>
      refine (ih []).andThen fun c d hcd => .same fun front => .done ?_
      exact List.rel_append (alike_refl front) (.cons (.token ht) hcd)
    | filter f => exact ih _
    | value =>
      refine (ih []).andThen fun c d hcd => .same fun front => .done ?_
      exact List.rel_append (alike_refl front) (.cons .value hcd)

theorem neighbour_alike {done done' : List Item} (h : List.Forall₂ Alike done done') :
    (neighbour done).1 = (neighbour done').1 ∧
      List.Forall₂ Alike (neighbour done).2 (neighbour done').2 := by
  cases h with
  | nil => exact ⟨rfl, .nil⟩
  | cons hx hr =>
    cases hx with
    | token ht => exact ⟨rfl, .cons (.token ht) hr⟩
    | filter f => exact ⟨rfl, hr⟩
    | value => exact ⟨rfl, .cons .value hr⟩

/-- A sweep applies the same operators. -/
theorem sweep_alike {node : Token.Kind → Option (Filter → Filter → Filter)} {done done' : List Item}
    (hd : List.Forall₂ Alike done done') (h : List.Forall₂ Alike a b) :
    Follows (sweep p node done a) (sweep p node done' b) := by
  fun_induction sweep p node done a generalizing done' b with
  | case1 done =>
    cases h
    exact .done (List.forall₂_reverse_iff.2 hd)
  | case2 done r f ih =>
    obtain _ | ⟨⟨⟩, hr⟩ := h
    rw [sweep]
    exact ih (.cons (.filter f) hd) hr
  | case3 done r ih =>
    obtain _ | ⟨⟨⟩, hr⟩ := h
    rw [sweep]
    exact ih (.cons .value hd) hr
  | case4 done r t hn ih =>
    obtain _ | ⟨⟨ht⟩, hr⟩ := h
    rw [sweep]
    simp only [← (Prod.mk.inj ht).1, hn]
    exact ih (.cons (.token ht) hd) hr
  | case5 done t make hm behind rest hn f r ih =>
    obtain _ | ⟨⟨ht⟩, _ | ⟨⟨⟩, hr⟩⟩ := h
    obtain ⟨hbehind, hrest⟩ := neighbour_alike hd
    rw [hn] at hbehind hrest
    rw [sweep]
    simp only [← (Prod.mk.inj ht).1, hm, ← hbehind]
    exact .same fun g => ih g (.cons (.filter _) hrest) hr
  | case6 done t make hm behind rest hn r hr ih =>
    obtain _ | ⟨⟨ht⟩, hr'⟩ := h
    obtain ⟨hbehind, hrest⟩ := neighbour_alike hd
    rw [hn] at hbehind hrest
    rw [sweep]
    simp only [← (Prod.mk.inj ht).1, hm, ← hbehind]
    -- with no filter ahead on one side there is none on the other
    have hnext : ∀ a g, Follows (sweep p node (.filter (make g a) :: rest) r)
        (sweep p node (.filter (make g a) :: (neighbour done').2) _) := fun a g =>
      ih a g (.cons (.filter _) hrest) hr'
    cases hr' with
    | nil => exact .same fun a => .same fun g => hnext a g
    | cons hx hs =>
      cases hx with
      | token => exact .same fun a => .same fun g => hnext a g
      | filter f => exact absurd rfl (hr f _)
      | value => exact .same fun a => .same fun g => hnext a g

theorem leftward_alike {kind : Token.Kind} {op : Operator} (h : List.Forall₂ Alike a b) :
    Follows (leftward p kind op a) (leftward p kind op b) :=
  sweep_alike .nil h

theorem rightward_alike {kind : Token.Kind} {op : Operator} (h : List.Forall₂ Alike a b) :
    Follows (rightward p kind op a) (rightward p kind op b) :=
  (sweep_alike .nil (List.forall₂_reverse_iff.2 h)).andThen fun _ _ hcd =>
    .done (List.forall₂_reverse_iff.2 hcd)

theorem pass_alike (h : List.Forall₂ Alike a b) : Follows (pass p a) (pass p b) := by
  refine (unary_alike h).andThen fun _ _ h => ?_
  refine (leftward_alike h).andThen fun _ _ h => ?_
  refine (rows_alike h []).andThen fun _ _ h => ?_
  refine (leftward_alike h).andThen fun _ _ h => ?_
  refine (leftward_alike h).andThen fun _ _ h => ?_
  refine (leftward_alike h).andThen fun _ _ h => ?_
  refine (leftward_alike h).andThen fun _ _ h => ?_
  refine (leftward_alike h).andThen fun _ _ h => ?_
  refine (rightward_alike h).andThen fun _ _ h => ?_
  exact leftward_alike h

end Operators

/-- Items that are alike are finished as the same filter. -/
theorem Bracket.Finished.alike {p : Permissions} {a b : List Item} {f : Filter}
    (h : List.Forall₂ Item.Alike a b) (hf : Finished p a f) : Finished p b f := by
  obtain ⟨rfl, rfl, hp⟩ | ⟨hne, done, hd, ho⟩ := hf
  · cases h
    exact .inl ⟨rfl, rfl, hp⟩
  · obtain ⟨done', hd', halike⟩ := Operators.atoms_alike h done hd
    obtain ⟨out, ho', hout⟩ := Operators.pass_alike halike _ ho
    obtain _ | ⟨⟨⟩, ⟨⟩⟩ := hout
    refine .inr ⟨?_, done', hd', ho'⟩
    rintro rfl
    cases h
    exact hne rfl

end FilterShell
