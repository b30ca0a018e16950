import FilterShell.Proofs.Filter.Origin
import FilterShell.Proofs.Token.Written

/-!
# Printed filters

`Filter.text` prints the tokens of a tree one after the other (`Filter.text_written`), and they never run
together in print.  This needs names and words of letters, numbers of digits, and strings of characters that
an escape can name.  A tree that was read from tokens like this has nothing else (`Built.readable`), and no
text is missing from it (`isWritten_of_readable`).
-/

namespace FilterShell

namespace Token

variable {t : Text} {ms : List Mark}

/-! ### Operators and words -/

theorem apart_space : Apart (Text.ofString " " ++ t) := apart_cons (by decide)

theorem Written.space (h : Written t ms) : Written (Text.ofString " " ++ t) ms :=
  .blank (by decide) h

theorem apart_operator (op : Operator) : Apart (Text.ofString op.text ++ t) := by
  cases op <;> exact apart_cons (by decide)

theorem Written.operator (op : Operator) (h : Written t ms) :
    Written (Text.ofString op.text ++ t) ((op.tokenKind, none) :: ms) := by
  cases op with
  | dot => exact .symbol (by decide) h
  | pair | comma | semicolon => exact .symbol (by decide) (.blank (by decide) h)
  | multiply | add | assign | pipe =>
    exact .blank (by decide) (.symbol (by decide) (.blank (by decide) h))

/-- A word of letters. -/
def IsWord (w : Text) : Prop := w ≠ [] ∧ ∀ r ∈ w, r.isLetter

theorem endWord_isWord : IsWord endWord := by
  unfold IsWord
  decide

end Token

namespace Filter

/-! ### Readable nodes -/

/-- The texts of a node can be read again. -/
def Readable : Filter → Prop
  | .name n                                 => Token.IsWord n
  | .number digits _                        => digits ≠ [] ∧ ∀ r ∈ digits, r.isDigit
  | .string t                               => t.Narrow
  | .nameless | .textless                   => False
  | .conditional clauses | .attempt clauses => ∀ c ∈ clauses, Token.IsWord c.1
  | _                                       => True

end Filter

theorem Token.Regular.isWord {t : Token} {w : Text} (h : t.Regular) (hk : t.kind = .name)
    (hw : t.text = some w) : Token.IsWord w := by
  simp only [Regular, hk] at h
  obtain ⟨v, hv, hletters⟩ := h
  cases hw.symm.trans hv
  exact hletters

/-- **What was read from good tokens can be read again.** -/
theorem Built.readable {p : Permissions} {n : Filter}
    (h : Built p (fun t => t.Regular ∧ t.Narrow) n) : n.Readable := by
  cases h with
  | empty | row | binary => trivial
  | @bracket k =>
    unfold Bracket.wrapped
    split <;> trivial
  | conditional hc | attempt hc =>
    intro c hmem
    obtain ⟨t, ⟨hr, -⟩, hk, ht⟩ := hc c hmem
    exact hr.isWord hk ht
  | unary hu =>
    unfold Operators.unary? at hu
    split at hu <;> cases hu <;> trivial
  | atom hq ha =>
    obtain ⟨hr, hn⟩ := hq
    unfold Operators.atom? at ha
    split at ha
    case h_1 hk ht =>
      cases ha
      exact hr.isWord hk ht
    case h_3 hk ht =>
      cases ha
      exact hn _ ht
    case h_5 hk ht =>
      simp only [Token.Regular, hk] at hr
      obtain ⟨w, hw, hdigits⟩ := hr
      cases ht.symm.trans hw
      split at ha <;> cases ha
      exact hdigits
    all_goals simp_all [Token.Regular]

namespace Filter

open Token (Apart Written apart_cons apart_space apart_operator)

/-! ### Texts -/

mutual

/-- **The text of a filter writes its marks**, in front of anything that does not run into it. -/
theorem text_written_append {rest : Text} {ms : List Mark} :
    ∀ f : Filter, (∀ n ∈ f.nodes, n.Readable) → Apart rest → Written rest ms →
      Written (f.text ++ rest) (f.marks ++ ms)
  | .empty, _, _, hrest => hrest
  | .nameless, h, _, _ | .textless, h, _, _ => absurd (h _ (mem_nodes_self _)) id
  | .name n, h, ha, hrest => by
    obtain ⟨hne, hletters⟩ := h _ (mem_nodes_self _)
    exact .name hne hletters ha hrest
  | .number digits value, h, ha, hrest => by
    obtain ⟨hne, hdigits⟩ := h _ (mem_nodes_self _)
    exact .number hne hdigits ha hrest
  | .string t, h, _, hrest => .string (h _ (mem_nodes_self _)) hrest
  | .parens f, h, _, hrest | .array f, h, _, hrest | .object f, h, _, hrest => by
    simp only [nodes, List.forall_mem_cons] at h
    simp only [text, marks, List.append_assoc, List.cons_append, List.nil_append]
    exact .symbol (by decide)
      (text_written_append f h.2 (apart_cons (by decide)) (.symbol (by decide) hrest))
  | .conditional clauses, h, ha, hrest | .attempt clauses, h, ha, hrest => by
    simp only [nodes, List.forall_mem_cons] at h
    have hend : Written (Text.ofString " " ++ (Token.endWord ++ rest))
        ((.name, some Token.endWord) :: ms) :=
      .space (.name Token.endWord_isWord.1 Token.endWord_isWord.2 ha hrest)
    simp only [text, marks, List.append_assoc, List.cons_append, List.nil_append]
    exact clauses_written_append clauses h.1 h.2 apart_space hend
  | .binary op l r, h, ha, hrest => by
    simp only [nodes, List.forall_mem_cons, List.forall_mem_append] at h
    simp only [text, marks, List.append_assoc, List.cons_append]
    exact text_written_append l h.2.1 (apart_operator op)
      (.operator op (text_written_append r h.2.2 ha hrest))
  | .apply parts, h, ha, hrest => by
    simp only [nodes, List.forall_mem_cons] at h
    exact parts_written_append parts h.2 ha hrest
  | .command f, h, ha, hrest | .globalVariable f, h, ha, hrest => by
    simp only [nodes, List.forall_mem_cons] at h
    exact .symbol (by decide) (text_written_append f h.2 ha hrest)

/-- The parts of a row stand between blanks. -/
theorem parts_written_append {rest : Text} {ms : List Mark} :
    ∀ parts : List Filter, (∀ n ∈ partNodes parts, n.Readable) → Apart rest → Written rest ms →
      Written (Text.join (Text.ofString " ") (texts parts) ++ rest) (partMarks parts ++ ms)
  | [], _, _, hrest => hrest
  | [f], h, ha, hrest => by
    simp only [partNodes, List.append_nil] at h
    simpa only [texts, Text.join, partMarks, List.append_nil]
      using text_written_append f h ha hrest
  | f :: g :: r, h, ha, hrest => by
    rw [partNodes, List.forall_mem_append] at h
    have htail := parts_written_append (g :: r) h.2 ha hrest
    simp only [texts, Text.join, List.append_assoc] at htail ⊢
    rw [partMarks, List.append_assoc]
    exact text_written_append f h.1 apart_space htail.space

theorem clauses_written_append {rest : Text} {ms : List Mark} :
    ∀ clauses : List (Text × Filter), (∀ c ∈ clauses, Token.IsWord c.1) →
      (∀ n ∈ clauseNodes clauses, n.Readable) → Apart rest → Written rest ms →
      Written (Text.join (Text.ofString " ") (clauseTexts clauses) ++ rest)
        (clauseMarks clauses ++ ms)
  | [], _, _, _, hrest => hrest
  | [(word, f)], hw, h, ha, hrest => by
    obtain ⟨hne, hletters⟩ := hw _ List.mem_cons_self
    simp only [clauseNodes, List.append_nil] at h
    simp only [clauseTexts, Text.join, clauseMarks, List.append_nil, List.append_assoc,
      List.cons_append]
    exact .name hne hletters apart_space (text_written_append f h ha hrest).space
  | (word, f) :: c :: r, hw, h, ha, hrest => by
    obtain ⟨⟨hne, hletters⟩, hw⟩ := List.forall_mem_cons.1 hw
    rw [clauseNodes, List.forall_mem_append] at h
    have htail := clauses_written_append (c :: r) hw h.2 ha hrest
    simp only [clauseTexts, Text.join, List.append_assoc] at htail ⊢
    rw [clauseMarks, List.cons_append, List.cons_append, List.append_assoc]
    exact .name hne hletters apart_space
      (text_written_append f h.1 apart_space htail.space).space

end

theorem text_written {f : Filter} (h : ∀ n ∈ f.nodes, n.Readable) : Written f.text f.marks := by
  simpa using text_written_append f h Token.apart_nil .nil

mutual

/-- No text is missing from readable nodes. -/
theorem isWritten_of_readable : ∀ f : Filter, (∀ n ∈ f.nodes, n.Readable) → f.isWritten
  | .empty, _ | .name _, _ | .number _ _, _ | .string _, _ => rfl
  | .nameless, h | .textless, h => absurd (h _ (mem_nodes_self _)) id
  | .parens f, h | .array f, h | .object f, h | .command f, h | .globalVariable f, h => by
    simp only [nodes, List.forall_mem_cons] at h
    exact isWritten_of_readable f h.2
  | .conditional clauses, h | .attempt clauses, h => by
    simp only [nodes, List.forall_mem_cons] at h
    exact clausesWritten_of_readable clauses h.2
  | .binary op l r, h => by
    simp only [nodes, List.forall_mem_cons, List.forall_mem_append] at h
    simp [isWritten, isWritten_of_readable l h.2.1, isWritten_of_readable r h.2.2]
  | .apply parts, h => by
    simp only [nodes, List.forall_mem_cons] at h
    exact allWritten_of_readable parts h.2

theorem allWritten_of_readable :
    ∀ parts : List Filter, (∀ n ∈ partNodes parts, n.Readable) → allWritten parts
  | [], _ => rfl
  | f :: r, h => by
    rw [partNodes, List.forall_mem_append] at h
    simp [allWritten, isWritten_of_readable f h.1, allWritten_of_readable r h.2]

theorem clausesWritten_of_readable : ∀ clauses : List (Text × Filter),
    (∀ n ∈ clauseNodes clauses, n.Readable) → clausesWritten clauses
  | [], _ => rfl
  | (_, f) :: r, h => by
    rw [clauseNodes, List.forall_mem_append] at h
    simp [clausesWritten, isWritten_of_readable f h.1, clausesWritten_of_readable r h.2]

end

end Filter

end FilterShell
