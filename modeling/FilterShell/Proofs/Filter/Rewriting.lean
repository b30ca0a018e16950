import FilterShell.Proofs.Filter.Tree
import FilterShell.Proofs.Outcome
import Mathlib.Logic.Relation

/-!
# Reading operators is rewriting

After the groups of a program are filters, its items are rewritten until one filter is left.  One
`Step` replaces neighbouring items by the filter that they form, which has passed its check, if it is one that
is checked, and has operands as tight as the group requires.

Each pass over the items is a sequence of such steps (`atoms_steps`, `unary_steps`, `rows_steps`,
`sweep_steps`), and so is the whole (`pass_steps`).  A pass leaves no filter that is looser than its own group.
-/

namespace FilterShell.Operators

variable {p : Permissions} {a b done done' items out : List Item} {k : Nat} {behind : Option Filter}
  {f : Filter}

open Relation (ReflTransGen)

/-- An operand as it stands among the items: a filter, or nothing for the empty one. -/
inductive Operand (p : Permissions) : Filter → List Item → Prop
  | present (f : Filter) : Operand p f [.filter f]
  | missing : p.Passes .empty → Operand p .empty []

/-- Neighbouring items become one filter. -/
inductive Step (p : Permissions) : List Item → List Item → Prop
  | atom {l r : List Item} {t : Token} {f : Filter} (ha : atom? t = some (.ok f))
      (hp : p.Passes f) : Step p (l ++ .token t :: r) (l ++ .filter f :: r)
  | unary {l r : List Item} {t : Token} {f : Filter} {node : Filter → Filter}
      (hu : unary? t.kind = some node) (hf : f.looseness ≤ 1) (hp : p.Passes (node f)) :
      Step p (l ++ .token t :: .filter f :: r) (l ++ .filter (node f) :: r)
  | row {l r : List Item} {fs : List Filter} (hf : (Filter.apply fs).Fits)
      (hp : p.Passes (.apply fs)) :
      Step p (l ++ fs.map .filter ++ r) (l ++ .filter (.apply fs) :: r)
  | binary {l ls rs r : List Item} {t : Token} {op : Operator} {left right : Filter}
      (ht : t.kind = op.tokenKind) (hl : Operand p left ls) (hr : Operand p right rs)
      (hf : (Filter.binary op left right).Fits) :
      Step p (l ++ ls ++ .token t :: rs ++ r) (l ++ .filter (.binary op left right) :: r)

/-- The items of a program, rewritten any number of times. -/
abbrev Steps (p : Permissions) : List Item → List Item → Prop := ReflTransGen (Step p)

/-- A step stays possible with more items around. -/
theorem Step.around (l r : List Item) (h : Step p a b) : Step p (l ++ a ++ r) (l ++ b ++ r) := by
  cases h with
  | @atom l' r' t f ha hp =>
    simpa using Step.atom (l := l ++ l') (r := r' ++ r) ha hp
  | @unary l' r' t f node hu hf hp =>
    simpa using Step.unary (l := l ++ l') (r := r' ++ r) hu hf hp
  | @row l' r' fs hf hp =>
    simpa using Step.row (l := l ++ l') (r := r' ++ r) hf hp
  | @binary l' ls rs r' t op left right ht hl hr hf =>
    simpa using Step.binary (l := l ++ l') (r := r' ++ r) ht hl hr hf

theorem Steps.around (l r : List Item) (h : Steps p a b) : Steps p (l ++ a ++ r) (l ++ b ++ r) := by
  induction h with
  | refl => exact .refl
  | tail _ hs ih => exact ih.tail (hs.around l r)

theorem Steps.cons {p : Permissions} {a b : List Item} (x : Item) (h : Steps p a b) :
    Steps p (x :: a) (x :: b) := by
  simpa using h.around [x] []

/-- No filter among the items is looser than `k`. -/
def Within (k : Nat) (items : List Item) : Prop := ∀ f, .filter f ∈ items → f.looseness ≤ k

theorem Within.mono {m : Nat} (h : Within k items) (hkm : k ≤ m) : Within m items :=
  fun f hf => Nat.le_trans (h f hf) hkm

@[simp] theorem within_nil (k : Nat) : Within k [] := by simp [Within]

@[simp] theorem within_cons {x : Item} {r : List Item} :
    Within k (x :: r) ↔ (∀ f, x = .filter f → f.looseness ≤ k) ∧ Within k r := by
  simp only [Within, List.mem_cons]
  constructor
  · intro h
    exact ⟨fun f hf => h f (.inl hf.symm), fun f hf => h f (.inr hf)⟩
  · rintro ⟨hx, hr⟩ f (hf | hf)
    · exact hx f hf.symm
    · exact hr f hf

/-! ### Atoms and operators in front -/

theorem looseness_atom {t : Token} (h : atom? t = some (.ok f)) : f.looseness = 0 := by
  unfold atom? at h
  split at h <;> (try split at h) <;> simp at h <;> subst h <;> rfl

/-- The first pass makes atoms. -/
theorem atoms_steps
    (h : atoms p items = .ok out) (hw : Within 0 items) : Steps p items out ∧ Within 0 out := by
  induction items generalizing out with
  | nil =>
    cases h
    exact ⟨.refl, hw⟩
  | cons x r ih =>
    rw [within_cons] at hw
    cases x with
    | token t =>
      obtain ⟨r', hr, h⟩ := andThen_ok.1 h
      obtain ⟨hs, hw'⟩ := ih hr hw.2
      split at h
      · rename_i a ha
        obtain ⟨f, rfl, hf⟩ := andThen_ok.1 h
        obtain ⟨g, hg, hd⟩ := andThen_ok.1 hf
        obtain ⟨rfl, hp⟩ := Permissions.check_eq_ok.1 hg
        rw [done_ok.1 hd]
        refine ⟨(hs.cons _).tail (.atom (l := []) ha hp), ?_⟩
        simp [looseness_atom ha, hw']
      · rw [done_ok.1 h]
        exact ⟨hs.cons _, by simp [hw']⟩
    | filter f | value =>
      obtain ⟨r', hr, h⟩ := andThen_ok.1 h
      obtain ⟨hs, hw'⟩ := ih hr hw.2
      rw [done_ok.1 h]
      exact ⟨hs.cons _, within_cons.2 ⟨hw.1, hw'⟩⟩

theorem looseness_unary {k : Token.Kind} {node : Filter → Filter} (h : unary? k = some node)
    (f : Filter) : (node f).looseness = 1 := by
  unfold unary? at h
  split at h <;> simp at h <;> subst h <;> rfl

theorem unary_steps
    (h : unary p items = .ok out) (hw : Within 0 items) : Steps p items out ∧ Within 1 out := by
  induction items generalizing out with
  | nil =>
    cases h
    exact ⟨.refl, by simp⟩
  | cons x r ih =>
    rw [within_cons] at hw
    cases x with
    | token t =>
      obtain ⟨r', hr, h⟩ := andThen_ok.1 h
      obtain ⟨hs, hw'⟩ := ih hr hw.2
      split at h
      · rw [done_ok.1 h]
        exact ⟨hs.cons _, by simp [hw']⟩
      · rename_i node hu
        split at h
        · rename_i f r''
          obtain ⟨g, hg, h⟩ := andThen_ok.1 h
          obtain ⟨rfl, hp⟩ := Permissions.check_eq_ok.1 hg
          rw [done_ok.1 h]
          rw [within_cons] at hw'
          refine ⟨(hs.cons _).tail (.unary (l := []) hu (hw'.1 f rfl) hp), ?_⟩
          simp [looseness_unary hu, hw'.2]
        · cases h
        · cases h
    | filter f | value =>
      obtain ⟨r', hr, h⟩ := andThen_ok.1 h
      obtain ⟨hs, hw'⟩ := ih hr hw.2
      rw [done_ok.1 h]
      refine ⟨hs.cons _, within_cons.2 ⟨fun g hg => ?_, hw'⟩⟩
      exact Nat.le_trans (hw.1 g hg) (Nat.zero_le 1)

/-! ### Rows -/

theorem within_map {fs : List Filter} : Within k (fs.map .filter) ↔ ∀ f ∈ fs, f.looseness ≤ k := by
  simp [Within]

theorem Within.append (ha : Within k a) (hb : Within k b) : Within k (a ++ b) := by
  intro f hf
  rcases List.mem_append.1 hf with h | h
  · exact ha f h
  · exact hb f h

theorem applied_steps {fs : List Filter}
    (h : applied p fs = .ok out) (hw : ∀ f ∈ fs, f.looseness ≤ 2) :
    Steps p (fs.map .filter) out ∧ Within 3 out := by
  match fs, h with
  | [], h =>
    cases h
    exact ⟨.refl, by simp⟩
  | [f], h =>
    cases h
    have hw : Within 2 ([f].map .filter) := within_map.2 hw
    exact ⟨.refl, hw.mono (by omega)⟩
  | f :: g :: fs, h =>
    obtain ⟨a, ha, h⟩ := andThen_ok.1 h
    obtain ⟨rfl, hp⟩ := Permissions.check_eq_ok.1 ha
    rw [done_ok.1 h]
    have hf : (Filter.apply (f :: g :: fs)).Fits := ⟨by simp, hw⟩
    refine ⟨.single ?_, by simp [Filter.looseness]⟩
    simpa using Step.row (l := []) (r := []) hf hp

/-- Filters that stand in a row become one. -/
theorem rows_steps {row : List Filter}
    (h : rows p row items = .ok out) (hr : ∀ f ∈ row, f.looseness ≤ 2) (hw : Within 2 items) :
    Steps p (row.map .filter ++ items) out ∧ Within 3 out := by
  fun_induction rows p row items generalizing out with
  | case1 row => simpa using applied_steps h hr
  | case2 row f r ih =>
    rw [within_cons] at hw
    have hr' : ∀ g ∈ row ++ [f], g.looseness ≤ 2 := by
      intro g hg
      rcases List.mem_append.1 hg with hg | hg
      · exact hr g hg
      · rw [List.mem_singleton.1 hg]
        exact hw.1 f rfl
    simpa using ih h hr' hw.2
  | case3 row x r hx ih =>
    rw [within_cons] at hw
    obtain ⟨rest, hrest, h⟩ := andThen_ok.1 h
    obtain ⟨front, hfront, h⟩ := andThen_ok.1 h
    rw [done_ok.1 h]
    obtain ⟨hs, hw'⟩ := ih hrest (by simp) hw.2
    obtain ⟨hs', hw''⟩ := applied_steps hfront hr
    refine ⟨?_, hw''.append (within_cons.2 ⟨fun f hf => (hx f hf).elim, hw'⟩)⟩
    -- the items behind `x` are rewritten first, then the row in front of it
    have back : Steps p (row.map .filter ++ x :: r) (row.map .filter ++ x :: rest) := by
      simpa using (hs.cons x).around (row.map .filter) []
    exact back.trans (by simpa using hs'.around [] (x :: rest))

/-! ### Binary operators -/

theorem operand_some {g : Filter} : operand p (some f) = .ok g ↔ g = f := by
  simp [operand, eq_comm]

theorem operand_none {g : Filter} : operand p none = .ok g ↔ g = .empty ∧ p.Passes .empty :=
  Permissions.check_eq_ok

/-- The operand that an operator finds among the items that are done. -/
theorem neighbour_operand
    {b : Filter} (hn : neighbour done = (behind, done')) (hb : operand p behind = .ok b) :
    ∃ bs, Operand p b bs ∧ done.reverse = done'.reverse ++ bs := by
  unfold neighbour at hn
  split at hn
  · cases hn
    obtain rfl := operand_some.1 hb
    exact ⟨_, .present _, by simp⟩
  · cases hn
    obtain ⟨rfl, hp⟩ := operand_none.1 hb
    exact ⟨_, .missing hp, by simp⟩

theorem neighbour_mem {x : Item}
    (hn : neighbour done = (behind, done')) (hx : x ∈ done') : x ∈ done := by
  unfold neighbour at hn
  split at hn <;> cases hn
  · exact List.mem_cons_of_mem _ hx
  · exact hx

theorem neighbour_within
    {b : Filter} (hn : neighbour done = (behind, done'))
    (hb : operand p behind = .ok b) (hw : Within k done) : b.looseness ≤ k := by
  unfold neighbour at hn
  split at hn <;> cases hn
  · obtain rfl := operand_some.1 hb
    exact hw _ List.mem_cons_self
  · obtain ⟨rfl, -⟩ := operand_none.1 hb
    exact Nat.zero_le k

/-- What is done stays within the group of the operator that was applied to it. -/
theorem Within.applied
    (hd : Within k done) (hn : neighbour done = (behind, done')) (hf : f.looseness = k) :
    Within k (.filter f :: done') := by
  refine within_cons.2 ⟨fun g hg => ?_, fun g hg => hd g (neighbour_mem hn hg)⟩
  cases hg
  exact Nat.le_of_eq hf

/-- What one sweep does, seen through any relation `R` between lists of items that follows each
single application: `R` relates the items before and after.  `k` is the looseness of the operators
that are applied; what is done may be as loose as they, what is ahead is tighter. -/
theorem sweep_related
    {node : Token.Kind → Option (Filter → Filter → Filter)} {R : List Item → List Item → Prop}
    (refl : ∀ a, R a a) (trans : ∀ {a b c}, R a b → R b c → R a c)
    (hk : ∀ {kind make}, node kind = some make → ∀ b a, (make b a).looseness = k + 1)
    (apply : ∀ {l bs as r : List Item} {t : Token} {make : Filter → Filter → Filter} {b a : Filter},
      node t.kind = some make → Operand p b bs → Operand p a as → b.looseness ≤ k + 1 →
      a.looseness ≤ k → R (l ++ bs ++ .token t :: as ++ r) (l ++ .filter (make b a) :: r))
    (h : sweep p node done items = .ok out) (hd : Within (k + 1) done) (hi : Within k items) :
    R (done.reverse ++ items) out ∧ Within (k + 1) out := by
  fun_induction sweep p node done items with
  | case1 done =>
    cases h
    simpa using ⟨refl _, fun f hf => hd f (List.mem_reverse.1 hf)⟩
  | case2 done r f ih =>
    rw [within_cons] at hi
    simpa using ih h (within_cons.2 ⟨fun g hg => Nat.le_succ_of_le (hi.1 g hg), hd⟩) hi.2
  | case3 done r ih =>
    rw [within_cons] at hi
    simpa using ih h (within_cons.2 ⟨by simp, hd⟩) hi.2
  | case4 done r t hn ih =>
    rw [within_cons] at hi
    simpa using ih h (within_cons.2 ⟨by simp, hd⟩) hi.2
  | case5 done t make hm behind done' hn f r ih =>
    -- the operator takes the filter ahead, and the one behind it if there is one
    obtain ⟨b, hb, h⟩ := andThen_ok.1 h
    obtain ⟨bs, hbs, hdone⟩ := neighbour_operand hn hb
    simp only [within_cons, Item.filter.injEq, forall_eq'] at hi
    have hb' := neighbour_within hn hb hd
    obtain ⟨hR, hw'⟩ := ih b h (hd.applied hn (hk hm b f)) hi.2.2
    refine ⟨trans ?_ hR, hw'⟩
    simpa [hdone] using
      apply (l := done'.reverse) (r := r) hm hbs (Operand.present f) hb' hi.2.1
  | case6 done t make hm behind done' hn r hr ih =>
    -- nothing to take ahead: the empty filter, if it passes
    obtain ⟨a, ha, h⟩ := andThen_ok.1 h
    obtain ⟨b, hb, h⟩ := andThen_ok.1 h
    obtain ⟨bs, hbs, hdone⟩ := neighbour_operand hn hb
    obtain ⟨rfl, hp⟩ := operand_none.1 ha
    have hb' := neighbour_within hn hb hd
    obtain ⟨hR, hw'⟩ := ih .empty b h (hd.applied hn (hk hm b .empty)) (within_cons.1 hi).2
    refine ⟨trans ?_ hR, hw'⟩
    simpa [hdone] using
      apply (l := done'.reverse) (r := r) hm hbs (Operand.missing hp) hb' (Nat.zero_le k)

/-- An operator that groups from the left, over items of which none is as loose. -/
theorem leftward_steps (op : Operator)
    (h : leftward p op.tokenKind op items = .ok out) (hop : op ≠ .pipe)
    (hk : op.looseness = k + 1) (hw : Within k items) :
    Steps p items out ∧ Within (k + 1) out := by
  refine sweep_related (R := Steps p) (fun _ => .refl) ReflTransGen.trans ?_ ?_ h (by simp) hw
  · intro kind make hm b a
    obtain ⟨-, ⟨⟩⟩ := Option.ite_none_right_eq_some.1 hm
    exact hk
  · intro l bs as r t make b a hm hb ha hbk hak
    obtain ⟨ht, ⟨⟩⟩ := Option.ite_none_right_eq_some.1 hm
    refine .single (.binary ht hb ha ?_)
    cases op <;> first | exact absurd rfl hop | exact ⟨hk ▸ hbk, hk ▸ Nat.lt_succ_of_le hak⟩

/-- The pipe groups from the right, over items of which none is as loose. -/
theorem rightward_steps
    (h : rightward p Operator.pipe.tokenKind .pipe items = .ok out) (hw : Within 8 items) :
    Steps p items out ∧ Within 9 out := by
  obtain ⟨back, hback, h⟩ := andThen_ok.1 h
  rw [done_ok.1 h]
  have hw' : Within 8 items.reverse := fun f hf => hw f (List.mem_reverse.1 hf)
  -- the sweep goes over the reversed items, so the steps are those between the reversed lists
  obtain ⟨hs, hb⟩ := sweep_related (R := fun a b => Steps p a.reverse b.reverse) (k := 8)
    (fun _ => .refl) ReflTransGen.trans
    (fun {kind make} hm b a => by
      obtain ⟨-, ⟨⟩⟩ := Option.ite_none_right_eq_some.1 hm
      rfl)
    (fun {l bs as r t make b a} hm hb ha hbk hak => by
      obtain ⟨ht, ⟨⟩⟩ := Option.ite_none_right_eq_some.1 hm
      have hf : (Filter.binary .pipe a b).Fits := ⟨Nat.lt_succ_of_le hak, hbk⟩
      have hbs : bs.reverse = bs := by cases hb <;> rfl
      have has : as.reverse = as := by cases ha <;> rfl
      simpa [hbs, has] using
        Relation.ReflTransGen.single (Step.binary (l := r.reverse) (r := l.reverse) ht ha hb hf))
    hback (by simp) hw'
  exact ⟨by simpa using hs, fun f hf => hb f (List.mem_reverse.1 hf)⟩

/-- **Reading all operators is rewriting.** -/
theorem pass_steps (h : pass p items = .ok out) (hw : Within 0 items) : Steps p items out := by
  obtain ⟨i₁, h₁, h⟩ := andThen_ok.1 h
  obtain ⟨s₁, w₁⟩ := unary_steps h₁ hw
  obtain ⟨i₂, h₂, h⟩ := andThen_ok.1 h
  obtain ⟨s₂, w₂⟩ := leftward_steps .dot h₂ (by simp) rfl w₁
  obtain ⟨i₃, h₃, h⟩ := andThen_ok.1 h
  obtain ⟨s₃, w₃⟩ := rows_steps h₃ (by simp) w₂
  obtain ⟨i₄, h₄, h⟩ := andThen_ok.1 h
  obtain ⟨s₄, w₄⟩ := leftward_steps .multiply h₄ (by simp) rfl w₃
  obtain ⟨i₅, h₅, h⟩ := andThen_ok.1 h
  obtain ⟨s₅, w₅⟩ := leftward_steps .add h₅ (by simp) rfl w₄
  obtain ⟨i₆, h₆, h⟩ := andThen_ok.1 h
  obtain ⟨s₆, w₆⟩ := leftward_steps .pair h₆ (by simp) rfl w₅
  obtain ⟨i₇, h₇, h⟩ := andThen_ok.1 h
  obtain ⟨s₇, w₇⟩ := leftward_steps .comma h₇ (by simp) rfl w₆
  obtain ⟨i₈, h₈, h⟩ := andThen_ok.1 h
  obtain ⟨s₈, w₈⟩ := leftward_steps .assign h₈ (by simp) rfl w₇
  obtain ⟨i₉, h₉, h⟩ := andThen_ok.1 h
  obtain ⟨s₉, w₉⟩ := rightward_steps h₉ w₈
  obtain ⟨s₁₀, -⟩ := leftward_steps .semicolon h (by simp) rfl w₉
  exact s₁.trans <| s₂.trans <| ReflTransGen.trans s₃ <| s₄.trans <| s₅.trans <| s₆.trans <|
    s₇.trans <| s₈.trans <| s₉.trans s₁₀

end FilterShell.Operators
