import FilterShell.Proofs.Token.Regular
import FilterShell.Proofs.Token.Turns
import Mathlib.Data.List.Basic

/-!
# Programs in strings

The tokens of a program in a string stand between two pieces of the string (`Kind.borders`).  Along the tokens of
a source, no program ends that has not begun, and the parentheses of a program match, those of programs within
it apart (`scan_nested`).

What the tokens do to the numbers of open parentheses (`Border.count?`) is what the scan does to them
(`scanFrom_tallies`); that the counts do not fail says the rest (`Counts.enclosed`).
-/

namespace FilterShell

namespace Token

/-! ### Borders -/

/-- A border that a token is: of a program in a string, or of what stands in parentheses. -/
inductive Border where
  | enter | leave
  | left | right
deriving DecidableEq

/-- The borders that a token of the kind is. -/
def Kind.borders : Kind → List Border
  | .stringStart                      => [.enter]
  | .stringMiddle                     => [.leave, .enter]
  | .stringEnd | .stringEndIncomplete => [.leave]
  | .openParen                        => [.left]
  | .closeParen                       => [.right]
  | _                                 => []

/-- The borders along some tokens. -/
def borders (ts : List Token) : List Border := ts.flatMap (·.kind.borders)

namespace Border

/-- Nothing is closed that is not open. -/
def NoneEarly (opening closing : Border) (w : List Border) : Prop :=
  ∀ u, u <+: w → u.count closing ≤ u.count opening

/-- Nothing is closed that is not open, and everything is closed in the end. -/
def Matched (opening closing : Border) (w : List Border) : Prop :=
  NoneEarly opening closing w ∧ w.count closing = w.count opening

/-- A border of what stands in parentheses. -/
def isParen (b : Border) : Bool := b = .left || b = .right

/-- The parentheses that are in none of the programs that begin here; `n` of them have begun. -/
def outside : Nat → List Border → List Border
  | _, []          => []
  | n, .enter :: w => outside (n + 1) w
  | n, .leave :: w => outside (n - 1) w
  | n, .left :: w  => if n = 0 then .left :: outside n w else outside n w
  | n, .right :: w => if n = 0 then .right :: outside n w else outside n w

theorem outside_paren {b : Border} (hb : b.isParen) (n : Nat) (w : List Border) :
    outside n (b :: w) = if n = 0 then b :: outside n w else outside n w := by
  cases b with
  | enter | leave => cases hb
  | left | right => rw [outside]

/-! ### Counts -/

/-- Counts the open parentheses of every program that has begun, innermost first. -/
def count? : List Nat → Border → Option (List Nat)
  | ds, .enter            => some (0 :: ds)
  | 0 :: ds, .leave       => some ds
  | _, .leave             => none
  | d :: ds, .left        => some ((d + 1) :: ds)
  | [], .left             => some []
  | (d + 1) :: ds, .right => some (d :: ds)
  | 0 :: _, .right        => none
  | [], .right            => some []

/-- A parenthesis is counted in the innermost program. -/
theorem count?_paren {d : Nat} {ds ds' : List Nat} {b : Border} (hb : b.isParen)
    (h : count? (d :: ds) b = some ds') :
    ∃ d', ds' = d' :: ds ∧ d' + [b].count .right = d + [b].count .left := by
  cases b with
  | enter | leave => cases hb
  | left =>
    cases h
    exact ⟨d + 1, rfl, rfl⟩
  | right => cases d with
    | zero => cases h
    | succ d =>
      cases h
      exact ⟨d, rfl, rfl⟩

/-- The counts go from the first to the second along the borders. -/
def Counts (ds : List Nat) (w : List Border) (ds' : List Nat) : Prop := w.foldlM count? ds = some ds'

namespace Counts

variable {ds ds' ds'' : List Nat} {b : Border} {u w : List Border}

theorem nil (ds : List Nat) : Counts ds [] ds := rfl

theorem append (hu : Counts ds u ds') (hw : Counts ds' w ds'') : Counts ds (u ++ w) ds'' := by
  rw [Counts, List.foldlM_append, hu]
  exact hw

theorem append_inv (h : Counts ds (u ++ w) ds'') : ∃ ds', Counts ds u ds' ∧ Counts ds' w ds'' := by
  rw [Counts, List.foldlM_append] at h
  exact Option.bind_eq_some_iff.1 h

theorem cons_inv (h : Counts ds (b :: w) ds'') : ∃ ds', count? ds b = some ds' ∧ Counts ds' w ds'' := by
  rw [Counts, List.foldlM_cons] at h
  exact Option.bind_eq_some_iff.1 h

theorem initial (h : Counts ds w ds') (hu : u <+: w) : ∃ ds'', Counts ds u ds'' := by
  obtain ⟨v, rfl⟩ := hu
  obtain ⟨ds'', hu, -⟩ := h.append_inv
  exact ⟨ds'', hu⟩

/-- There are as many counts as programs that have begun and not ended. -/
theorem length_eq (h : Counts ds w ds') : ds'.length + w.count .leave = ds.length + w.count .enter := by
  induction w generalizing ds with
  | nil =>
    cases h
    rfl
  | cons b w ih =>
    obtain ⟨ds₁, hb, hw⟩ := h.cons_inv
    have hlength := ih hw
    have hstep : ds₁.length + [b].count .leave = ds.length + [b].count .enter := by
      unfold count? at hb
      split at hb <;> cases hb <;> rfl
    rw [← List.singleton_append, List.count_append, List.count_append]
    omega

theorem noneEarly (h : Counts [] w ds') : NoneEarly .enter .leave w := by
  intro u hu
  obtain ⟨ds'', hcounts⟩ := h.initial hu
  have hlength := hcounts.length_eq
  rw [List.length_nil, Nat.zero_add] at hlength
  omega

/-- **The count of a program** is that of its own parentheses.  Here `n` programs in it have begun, and none of
those around it ends. -/
theorem outside_eq {inner : List Nat} {d n : Nat} (h : Counts (inner ++ d :: ds) w ds') (hn : inner.length = n)
    (hw : ∀ u, u <+: w → u.count .leave ≤ n + u.count .enter) :
    ∃ inner' d', ds' = inner' ++ d' :: ds ∧ d' + (outside n w).count .right = d + (outside n w).count .left := by
  induction w generalizing inner d n with
  | nil =>
    cases h
    exact ⟨inner, d, rfl, rfl⟩
  | cons b w ih =>
    obtain ⟨ds₁, hb, hrest⟩ := h.cons_inv
    have hnext : ∀ u, u <+: w → (b :: u).count .leave ≤ n + (b :: u).count .enter :=
      fun u hu => hw _ (List.cons_prefix_cons.2 ⟨rfl, hu⟩)
    cases b with
    | enter =>
      cases hb
      rw [← List.cons_append] at hrest
      refine ih hrest (congrArg (· + 1) hn) fun u hu => ?_
      have hcount := hnext u hu
      rw [List.count_cons_self, List.count_cons_of_ne (by decide)] at hcount
      omega
    | leave =>
      cases inner with
      | nil =>
        subst hn
        exact absurd (hnext [] List.nil_prefix) (by decide)
      | cons i inner => cases i with
        | succ i => cases hb
        | zero =>
          cases hb
          subst hn
          refine ih hrest rfl fun u hu => ?_
          have hcount := hnext u hu
          rw [List.count_cons_self, List.count_cons_of_ne (by decide)] at hcount
          rw [List.length_cons] at hcount ⊢
          omega
    | left | right =>
      have hbegun : ∀ u, u <+: w → u.count .leave ≤ n + u.count .enter := by
        intro u hu
        have hcount := hnext u hu
        rwa [List.count_cons_of_ne (by decide), List.count_cons_of_ne (by decide)] at hcount
      rw [outside_paren rfl]
      cases inner with
      | nil =>
        -- The parenthesis is one of the program itself.
        obtain ⟨d₁, rfl, hd₁⟩ := count?_paren rfl hb
        rw [← List.nil_append (d₁ :: ds)] at hrest
        obtain ⟨inner', d', hds, hd⟩ := ih hrest hn hbegun
        refine ⟨inner', d', hds, ?_⟩
        have hzero : n = 0 := hn.symm
        rw [if_pos hzero, ← List.singleton_append, List.count_append, List.count_append]
        omega
      | cons i inner =>
        rw [List.cons_append] at hb
        obtain ⟨i₁, rfl, -⟩ := count?_paren rfl hb
        rw [← List.cons_append] at hrest
        rw [if_neg (hn.symm.trans_ne (Nat.succ_ne_zero _))]
        exact ih hrest hn hbegun

end Counts

/-- What stands outside in front is what is outside of some borders in front. -/
theorem exists_prefix_outside {n : Nat} {w q : List Border} (h : q <+: outside n w) :
    ∃ u, u <+: w ∧ outside n u = q := by
  induction w generalizing n q with
  | nil =>
    obtain rfl := List.prefix_nil.1 h
    exact ⟨[], List.prefix_rfl, rfl⟩
  | cons b w ih =>
    have hmore : ∀ {m : Nat} {q : List Border}, (∀ v, outside n (b :: v) = outside m v) → q <+: outside m w →
        ∃ u, u <+: b :: w ∧ outside n u = q := by
      intro m q hb hq
      obtain ⟨u, hu, rfl⟩ := ih hq
      exact ⟨b :: u, List.cons_prefix_cons.2 ⟨rfl, hu⟩, hb u⟩
    cases b with
    | enter => exact hmore (fun v => by rw [outside]) (by rwa [outside] at h)
    | leave => exact hmore (fun v => by rw [outside]) (by rwa [outside] at h)
    | left | right =>
      rw [outside_paren rfl] at h
      by_cases hn : n = 0
      · rw [if_pos hn] at h
        cases q with
        | nil => exact ⟨[], List.nil_prefix, rfl⟩
        | cons c q =>
          obtain ⟨rfl, hq⟩ := List.cons_prefix_cons.1 h
          obtain ⟨u, hu, rfl⟩ := ih hq
          exact ⟨_ :: u, List.cons_prefix_cons.2 ⟨rfl, hu⟩, by rw [outside_paren rfl, if_pos hn]⟩
      · rw [if_neg hn] at h
        exact hmore (fun v => by rw [outside_paren rfl, if_neg hn]) h

/-- **The parentheses of a program match** if the counts do not fail: those between its border and the one where
it ends, outside of the programs in it. -/
theorem Counts.enclosed {u program v : List Border} {ds : List Nat}
    (h : Counts [] (u ++ .enter :: (program ++ .leave :: v)) ds) (hprogram : Matched .enter .leave program) :
    Matched .left .right (outside 0 program) := by
  obtain ⟨outer, -, h⟩ := h.append_inv
  obtain ⟨begun, hbegun, h⟩ := h.cons_inv
  obtain ⟨ended, hended, h⟩ := h.append_inv
  obtain ⟨left, hleave, -⟩ := h.cons_inv
  cases hbegun
  rw [← List.nil_append (0 :: outer)] at hended
  have hwithin : ∀ w, w <+: program → w.count .leave ≤ 0 + w.count .enter := by
    intro w hw
    rw [Nat.zero_add]
    exact hprogram.1 w hw
  constructor
  · intro q hq
    obtain ⟨w, hw, rfl⟩ := exists_prefix_outside hq
    obtain ⟨ds', hcounts⟩ := hended.initial hw
    obtain ⟨inner, d, -, hd⟩ := hcounts.outside_eq List.length_nil fun w' hw' => hwithin w' (hw'.trans hw)
    omega
  · obtain ⟨inner, d, hds, hd⟩ := hended.outside_eq List.length_nil hwithin
    have hlength := hended.length_eq
    simp only [hprogram.2, hds, List.length_append, List.length_cons, List.length_nil] at hlength
    obtain rfl : inner = [] := List.length_eq_zero_iff.1 (by omega)
    subst hds
    cases d with
    | zero => omega
    | succ d => cases hleave

end Border

/-! ### The tokens of a source -/

open Border

/-- The counts do not fail along the tokens. -/
def Tallies (ds : List Nat) (ts : List Token) : Prop := ∃ ds', Counts ds (borders ts) ds'

theorem Tallies.cons {ds ds' : List Nat} {t : Token} {ts : List Token} (ht : Counts ds t.kind.borders ds')
    (hts : Tallies ds' ts) : Tallies ds (t :: ts) := by
  obtain ⟨ds'', hts⟩ := hts
  exact ⟨ds'', ht.append hts⟩

theorem tallies_nil (ds : List Nat) : Tallies ds [] := ⟨ds, .nil ds⟩

/-- A piece of a string ends a program if it continues the string, and begins one at an interpolation. -/
theorem piece_counts (r : Rune) (depths begun : List Nat) {stop : Stop}
    (hbegun : begun = if stop = .interpolation then [0] else []) :
    let closes := r = Rune.ofChar ')' && decide (depths.head? = some 0)
    Counts depths (pieceKind closes stop).borders (begun ++ if _h : closes then depths.tail else depths) := by
  intro closes
  subst hbegun
  cases hcloses : closes with
  | false => cases stop <;> rfl
  | true =>
    obtain ⟨-, hzero⟩ : r = Rune.ofChar ')' ∧ depths.head? = some 0 := by simpa [closes] using hcloses
    obtain ⟨ds, rfl⟩ := List.head?_eq_some_iff.1 hzero
    cases stop <;> rfl

/-- The counts of the scan are those of its tokens. -/
theorem scanFrom_tallies (lead : Text) (p : Position) (depths : List Nat) (source : Text) :
    Tallies depths (scanFrom lead p depths source).tokens := by
  fun_induction scanFrom lead p depths source with
  | case1 lead p depths | case8 lead p depths => exact tallies_nil depths
  | case2 lead p depths => exact .cons (.nil depths) (tallies_nil depths)
  | case3 lead p depths r rest closes hr body start piece outer next hstop ih
  | case4 lead p depths r rest closes hr body start piece outer next hstop ih =>
    exact .cons (piece_counts r depths [] (by rw [hstop]; rfl)) ih
  | case5 lead p depths r rest closes hr body start piece outer next hstop ih =>
    exact .cons (piece_counts r depths [0] (by rw [hstop]; rfl)) ih
  | case6 lead p depths r rest closes hr body start piece outer next hstop
  | case7 lead p depths r rest closes hr body start piece outer next hstop =>
    exact .cons (piece_counts r depths [] (by rw [hstop]; rfl)) (.cons (.nil _) (tallies_nil _))
  | case9 lead p depths r rest _ _ hblank ih => exact ih
  | case10 lead p depths rest comment _ _ _ ih => exact .cons (.nil depths) ih
  | case11 lead p depths r rest _ _ _ _ hletter letters ih => exact .cons (.nil depths) ih
  | case12 lead p depths r rest _ _ _ _ _ hdigit digits ih => exact .cons (.nil depths) ih
  | case13 lead p depths r rest closes hr _ _ _ _ kind hkind next ih =>
    refine .cons ?_ ih
    have hregular := (symbol_regular hkind [] p).1
    cases kind with
    | openParen => cases depths <;> rfl
    | closeParen =>
      have hzero := depth_ne_zero hkind hr
      cases depths with
      | nil => rfl
      | cons d ds => cases d with
        | zero => exact absurd rfl hzero
        | succ d => rfl
    | stringStart | stringMiddle | stringEnd | stringEndIncomplete =>
      obtain ⟨w, hw⟩ := hregular
      cases hw
    | _ => cases depths <;> rfl
  | case14 lead p depths => exact .cons (.nil depths) (tallies_nil depths)

theorem scan_tallies (source : Text) : Tallies [] (scan source).tokens := by
  unfold scan
  split
  · exact scanFrom_tallies ..
  · split <;> exact scanFrom_tallies ..

/-- **Programs in strings are nested.**  Along the first tokens of a source, however many, no program ends that has
not begun, and between the borders of a program the parentheses outside of the programs in it match.  The loop that
makes the tokens one by one ends on every source. -/
theorem scan_nested (source : Text) :
    (∀ ts, ts <+: (scan source).tokens →
      NoneEarly .enter .leave (borders ts) ∧
      ∀ u program v, borders ts = u ++ .enter :: (program ++ .leave :: v) → Matched .enter .leave program →
        Matched .left .right (outside 0 program)) ∧
    (Cursor.start source).turn.Halts (scan source) := by
  refine ⟨fun ts hts => ?_, Cursor.halts_start source⟩
  obtain ⟨more, hmore⟩ := hts
  obtain ⟨ds, hcounts⟩ := scan_tallies source
  rw [← hmore, borders, List.flatMap_append] at hcounts
  obtain ⟨ds', hcounts, -⟩ := hcounts.append_inv
  refine ⟨hcounts.noneEarly, fun u program v hborders hprogram => ?_⟩
  rw [← borders, hborders] at hcounts
  exact hcounts.enclosed hprogram

/-- The theorem at a string in the parentheses of a program in a string. -/
theorem scan_nested_twice :
    let ts := (scan "\"a\\((1 + \"b\\(2)\"))c\"").tokens
    let program : List Border := [.left, .enter, .leave, .right]
    borders ts = [] ++ .enter :: (program ++ .leave :: []) ∧ Matched .enter .leave program ∧
      outside 0 program = [.left, .right] ∧ Matched .left .right (outside 0 program) := by
  intro ts program
  have hborders : borders ts = [] ++ .enter :: (program ++ .leave :: []) := by decide +kernel
  have hcounts : Counts [] program [] := rfl
  have hprogram : Matched .enter .leave program := ⟨hcounts.noneEarly, rfl⟩
  obtain ⟨hnested, -⟩ := scan_nested "\"a\\((1 + \"b\\(2)\"))c\""
  exact ⟨hborders, hprogram, rfl, (hnested ts List.prefix_rfl).2 [] program [] hborders hprogram⟩

end Token

end FilterShell
