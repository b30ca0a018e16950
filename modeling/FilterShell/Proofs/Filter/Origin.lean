import FilterShell.Proofs.Filter.Rewriting
import FilterShell.Proofs.Token.Regular

/-!
# Where the nodes of a tree come from

`Built p Q` lists the ways in which a reader with the permissions `p` makes a node out of tokens that
satisfy `Q`, each with what the reader has seen to at that moment.  A step of rewriting keeps the origin of
all nodes (`Step.allBuilt`) and the tokens that the items read as (`Step.marks`).
-/

namespace FilterShell

variable {a b : List Item} {f : Filter} {t : Token}

open Relation (ReflTransGen)

/-- The filter of a bracket that opens with a token of kind `k`. -/
def Bracket.wrapped (k : Token.Kind) (body : Filter) : Filter :=
  match k with
  | .openArray  => .array body
  | .openObject => .object body
  | _           => .parens body

/-- A node as the reader makes it. -/
inductive Built (p : Permissions) (Q : Token → Prop) : Filter → Prop
  | empty : p.Passes .empty → Built p Q .empty
  | bracket {k : Token.Kind} {body : Filter} : p.Passes (Bracket.wrapped k body) →
      Built p Q (Bracket.wrapped k body)
  | conditional {clauses : List (Text × Filter)} :
      (∀ c ∈ clauses, ∃ t, Q t ∧ t.kind = .name ∧ t.text = some c.1) →
      p.Passes (.conditional clauses) → Built p Q (.conditional clauses)
  | attempt {clauses : List (Text × Filter)} :
      (∀ c ∈ clauses, ∃ t, Q t ∧ t.kind = .name ∧ t.text = some c.1) →
      p.Passes (.attempt clauses) → Built p Q (.attempt clauses)
  | atom {t : Token} {f : Filter} : Q t → Operators.atom? t = some (.ok f) → p.Passes f →
      Built p Q f
  | unary {k : Token.Kind} {node : Filter → Filter} {f : Filter} :
      Operators.unary? k = some node → f.looseness ≤ 1 → p.Passes (node f) → Built p Q (node f)
  | row {parts : List Filter} : (Filter.apply parts).Fits → p.Passes (.apply parts) →
      Built p Q (.apply parts)
  | binary {op : Operator} {l r : Filter} : (Filter.binary op l r).Fits →
      Built p Q (.binary op l r)

/-- Every node of the tree was made by the reader. -/
def Filter.AllBuilt (p : Permissions) (Q : Token → Prop) (f : Filter) : Prop :=
  ∀ n ∈ f.nodes, Built p Q n

/-- The tokens satisfy `Q`, and every node of the filters was made by the reader. -/
def Item.BuiltFrom (p : Permissions) (Q : Token → Prop) (x : Item) : Prop :=
  match x with
  | .token t  => Q t
  | .filter f => f.AllBuilt p Q
  | .value    => True

section
variable {p : Permissions} {Q : Token → Prop}

theorem Filter.allBuilt_empty (h : p.Passes .empty) : Filter.empty.AllBuilt p Q := by
  simpa [Filter.AllBuilt, Filter.nodes] using Built.empty h

theorem Filter.allBuilt_wrapped {k : Token.Kind} {body : Filter}
    (h : p.Passes (Bracket.wrapped k body)) (hb : body.AllBuilt p Q) :
    (Bracket.wrapped k body).AllBuilt p Q := by
  have hnodes : (Bracket.wrapped k body).nodes = Bracket.wrapped k body :: body.nodes := by
    unfold Bracket.wrapped
    split <;> simp [Filter.nodes]
  intro n hn
  rw [hnodes] at hn
  rcases List.mem_cons.1 hn with rfl | hn
  · exact .bracket h
  · exact hb n hn

theorem Filter.allBuilt_atom (hq : Q t)
    (ha : Operators.atom? t = some (.ok f)) (h : p.Passes f) : f.AllBuilt p Q := by
  have hnodes : f.nodes = [f] := by
    unfold Operators.atom? at ha
    split at ha <;> (try split at ha) <;> simp at ha <;> subst ha <;> simp [Filter.nodes]
  intro n hn
  rw [hnodes, List.mem_singleton] at hn
  exact hn ▸ .atom hq ha h

theorem Filter.allBuilt_unary {k : Token.Kind} {node : Filter → Filter}
    (hu : Operators.unary? k = some node) (hf : f.looseness ≤ 1) (h : p.Passes (node f))
    (hb : f.AllBuilt p Q) : (node f).AllBuilt p Q := by
  have hnodes : (node f).nodes = node f :: f.nodes := by
    unfold Operators.unary? at hu
    split at hu <;> simp at hu <;> subst hu <;> simp [Filter.nodes]
  intro n hn
  rw [hnodes] at hn
  rcases List.mem_cons.1 hn with rfl | hn
  · exact .unary hu hf h
  · exact hb n hn

theorem Filter.allBuilt_row {parts : List Filter} (hf : (Filter.apply parts).Fits)
    (h : p.Passes (.apply parts)) (hb : ∀ f ∈ parts, f.AllBuilt p Q) :
    (Filter.apply parts).AllBuilt p Q := by
  intro n hn
  simp only [Filter.nodes, List.mem_cons, Filter.mem_partNodes] at hn
  rcases hn with rfl | ⟨f, hfm, hn⟩
  · exact .row hf h
  · exact hb f hfm n hn

theorem Filter.allBuilt_binary {op : Operator} {l r : Filter}
    (hf : (Filter.binary op l r).Fits) (hl : l.AllBuilt p Q) (hr : r.AllBuilt p Q) :
    (Filter.binary op l r).AllBuilt p Q := by
  intro n hn
  simp only [Filter.nodes, List.mem_cons, List.mem_append] at hn
  rcases hn with rfl | hn | hn
  · exact .binary hf
  · exact hl n hn
  · exact hr n hn

end

namespace Operators

variable {p : Permissions} {Q : Token → Prop}

theorem Operand.allBuilt {items : List Item} (h : Operand p f items)
    (hb : ∀ x ∈ items, x.BuiltFrom p Q) : f.AllBuilt p Q := by
  cases h with
  | present => exact hb _ List.mem_cons_self
  | missing hp => exact Filter.allBuilt_empty hp

/-- What a step replaces, and what it puts there instead, between items that stay. -/
theorem Step.allBuilt (h : Step p a b) (ha : ∀ x ∈ a, x.BuiltFrom p Q) :
    ∀ x ∈ b, x.BuiltFrom p Q := by
  cases h with
  | atom hat hp =>
    simp only [List.forall_mem_append, List.forall_mem_cons] at ha ⊢
    exact ⟨ha.1, Filter.allBuilt_atom ha.2.1 hat hp, ha.2.2⟩
  | unary hu hf hp =>
    simp only [List.forall_mem_append, List.forall_mem_cons] at ha ⊢
    exact ⟨ha.1, Filter.allBuilt_unary hu hf hp ha.2.2.1, ha.2.2.2⟩
  | row hf hp =>
    simp only [List.forall_mem_append, List.forall_mem_cons, List.forall_mem_map] at ha ⊢
    exact ⟨ha.1.1, Filter.allBuilt_row hf hp ha.1.2, ha.2⟩
  | binary ht hl hr hf =>
    simp only [List.forall_mem_append, List.forall_mem_cons] at ha ⊢
    obtain ⟨⟨⟨hb, hls⟩, -, hrs⟩, ha⟩ := ha
    exact ⟨hb, Filter.allBuilt_binary hf (hl.allBuilt hls) (hr.allBuilt hrs), ha⟩

theorem Steps.allBuilt (h : Steps p a b) (ha : ∀ x ∈ a, x.BuiltFrom p Q) :
    ∀ x ∈ b, x.BuiltFrom p Q := by
  induction h with
  | refl => exact ha
  | tail _ hs ih => exact hs.allBuilt ih

/-! ### Marks -/

theorem marks_atom (h : atom? t = some (.ok f)) : f.marks = [t.mark] := by
  unfold atom? at h
  split at h <;> (try split at h) <;> simp at h <;> subst h <;> simp_all [Filter.marks, Token.mark]

theorem marks_unary {node : Filter → Filter} (hu : unary? t.kind = some node)
    (ht : t.Regular) (f : Filter) : (node f).marks = t.mark :: f.marks := by
  unfold unary? at hu
  split at hu <;> simp at hu <;> subst hu <;>
    simp_all [Filter.marks, Token.mark, Token.Regular]

theorem mark_operator {op : Operator} (hk : t.kind = op.tokenKind)
    (ht : t.Regular) : t.mark = (op.tokenKind, none) := by
  cases op <;> simp_all [Token.mark, Token.Regular, Operator.tokenKind]

theorem marks_row (fs : List Filter) :
    (fs.map Item.filter).flatMap Item.marks = Filter.partMarks fs := by
  induction fs with
  | nil => rfl
  | cons f r ih => simpa [Filter.partMarks, Item.marks] using ih

theorem Operand.marks {items : List Item} (h : Operand p f items) :
    items.flatMap Item.marks = f.marks := by
  cases h <;> simp [Item.marks, Filter.marks]

/-- A step keeps what the items read as. -/
theorem Step.marks (h : Step p a b) (ha : ∀ x ∈ a, x.BuiltFrom p Token.Regular) :
    b.flatMap Item.marks = a.flatMap Item.marks := by
  cases h with
  | atom hat hp =>
    simp [Item.marks, marks_atom hat]
  | unary hu hf hp =>
    simp only [List.forall_mem_append, List.forall_mem_cons] at ha
    simp [Item.marks, marks_unary hu ha.2.1]
  | row hf hp =>
    simp [Item.marks, marks_row, Filter.marks]
  | binary ht hl hr hf =>
    simp only [List.forall_mem_append, List.forall_mem_cons] at ha
    simp [Item.marks, Filter.marks, hl.marks, hr.marks, mark_operator ht ha.1.2.1]

theorem Steps.marks (h : Steps p a b) (ha : ∀ x ∈ a, x.BuiltFrom p Token.Regular) :
    b.flatMap Item.marks = a.flatMap Item.marks := by
  induction h with
  | refl => rfl
  | tail hs h ih => rw [h.marks (Steps.allBuilt hs ha), ih]

end Operators

end FilterShell
