import FilterShell.Proofs.Filter.Reading

/-!
# What permissions keep out

Whoever reads a program may forbid filters.  The origins of nodes (`Built`) show that each node goes through
the check, except those of operators with two operands.  So a program that is read holds nothing forbidden
exactly if its binary operators are allowed, and `1 + 2` is read where only numbers are.
-/

namespace FilterShell

theorem Permissions.Passes.allowed {p : Permissions} {f : Filter} (h : p.Passes f) :
    p.allows f := by
  unfold Passes check at h
  split at h
  · cases h
  · split at h
    · assumption
    · split at h <;> cases h

/-- The node of an operator with two operands. -/
def Filter.isBinary : Filter → Bool
  | .binary .. => true
  | _          => false

/-- Every node that the reader makes goes through the check, unless it is binary. -/
theorem Built.passes {p : Permissions} {Q : Token → Prop} {f : Filter} (h : Built p Q f)
    (hb : ¬ f.isBinary) : p.Passes f := by
  cases h with
  | empty hp | bracket hp | conditional _ hp | attempt _ hp | atom _ _ hp | unary _ _ hp
  | row _ hp => exact hp
  | binary => exact absurd rfl hb

namespace Filter

/-- **Only binary operators escape the permissions.**  In a program that is read, every other node, at
any depth, is allowed; so all of its nodes are exactly if its binary operators are. -/
theorem ofSource_allowed (p : Permissions) (lines : Bool) (source : Text) (f : Filter)
    (hread : ofSource p lines source = .ok f) :
    (∀ n ∈ f.nodes, ¬ n.isBinary → p.allows n) ∧
    ((∀ n ∈ f.nodes, p.allows n) ↔ ∀ n ∈ f.nodes, n.isBinary → p.allows n) := by
  obtain ⟨ts, items, -, hts, hg, hf⟩ := ofSource_sound hread
  have hbuilt : f.AllBuilt p Token.Regular :=
    hf.allBuilt hg.within (hg.builtFrom fun t ht => (hts t ht).2)
  have hother : ∀ n ∈ f.nodes, ¬ n.isBinary → p.allows n := fun n hn hb =>
    ((hbuilt n hn).passes hb).allowed
  refine ⟨hother, fun h n hn _ => h n hn, fun h n hn => ?_⟩
  by_cases hb : n.isBinary
  · exact h n hn hb
  · exact hother n hn hb

/-- The theorem at a program whose binary operators are allowed, inside a bracket. -/
theorem ofSource_allowed_sum :
    ∃ f, ofSource (.only [.number, .add, .parens]) false "(1 + 2)" = .ok f ∧
      (∀ n ∈ f.nodes, ¬ n.isBinary → (Permissions.only [.number, .add, .parens]).allows n) ∧
      ((∀ n ∈ f.nodes, (Permissions.only [.number, .add, .parens]).allows n) ↔
        ∀ n ∈ f.nodes, n.isBinary → (Permissions.only [.number, .add, .parens]).allows n) := by
  have hok : (ofSource (.only [.number, .add, .parens]) false "(1 + 2)").isOk := by decide +kernel
  obtain ⟨f, hread⟩ := exists_of_isOk hok
  exact ⟨f, hread, ofSource_allowed _ _ _ f hread⟩

/-- A sum is read where only numbers are allowed. -/
theorem sum_escapes :
    ∃ f, ofSource (.only [.number]) false "1 + 2" = .ok f ∧ f.kind = .add ∧
      ∃ n ∈ f.nodes, ¬ (Permissions.only [.number]).allows n := by
  have hkind : ((ofSource (.only [.number]) false "1 + 2").map Filter.kind).toOption = some .add := by
    decide +kernel
  cases hread : ofSource (.only [.number]) false "1 + 2" with
  | error e => simp [hread, Except.map, Except.toOption] at hkind
  | ok f =>
    have hkind : f.kind = .add := by simpa [hread, Except.map, Except.toOption] using hkind
    refine ⟨f, rfl, hkind, f, mem_nodes_self f, ?_⟩
    simp [Permissions.allows, Permissions.rule, Permission.Rule.allows, hkind]

end Filter

end FilterShell
