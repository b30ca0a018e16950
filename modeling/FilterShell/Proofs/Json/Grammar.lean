import FilterShell.Json.Read
import FilterShell.Proofs.Value.Content
import FilterShell.Proofs.Value.Data

/-!
# The grammar of JSON

    value  ::=  false | null | true | number | string
             |  [ ]  |  [ value (, value)* ]
             |  { }  |  { member (, member)* }
    member ::=  string : value

A document is a value, with or without white space behind it.  In an object a repeated key keeps its first
place and gets its last value.

The rules are also needed from left to right, with all that stands behind: `Starts` and `Symbol`.
-/

namespace FilterShell.Json

variable {rest : Datum → List Token → Prop}

/-- A token that is a value by itself, and what it says. -/
inductive IsScalar : Token → Datum → Prop
  | false {t : Token} (hkind : t.kind = .name) (htext : t.text = some "false") :
      IsScalar t (.bool false)
  | null {t : Token} (hkind : t.kind = .name) (htext : t.text = some "null") : IsScalar t .null
  | true {t : Token} (hkind : t.kind = .name) (htext : t.text = some "true") :
      IsScalar t (.bool true)
  | number {t : Token} {w : Text} (hkind : t.kind = .number) (htext : t.text = some w) :
      IsScalar t (.number (.ofNat (Decimal.natOf w)))
  | string {t : Token} {w : Text} (hkind : t.kind = .string) (htext : t.text = some w) :
      IsScalar t (.text w)

/-- One or more parts with commas between them. -/
inductive Separated {α : Type} (P : List Token → α → Prop) : List Token → List α → Prop
  | one {ts : List Token} {x : α} (h : P ts x) : Separated P ts [x]
  | more {ts us : List Token} {comma : Token} {x : α} {xs : List α} (h : P ts x)
      (hcomma : comma.kind = .comma) (hrest : Separated P us xs) :
      Separated P (ts ++ comma :: us) (x :: xs)

/-- What stands behind an opening bracket: any number of parts with commas between them, and the closing
bracket. -/
inductive Enclosed {α : Type} (P : List Token → α → Prop) (closer : Token.Kind) :
    List Token → List α → Prop
  | empty {c : Token} (hc : c.kind = closer) : Enclosed P closer [c] []
  | parts {ts : List Token} {c : Token} {xs : List α} (h : Separated P ts xs) (hc : c.kind = closer) :
      Enclosed P closer (ts ++ [c]) xs

mutual

/-- The tokens are a value, which says the datum. -/
inductive IsValue : List Token → Datum → Prop
  | scalar {t : Token} {x : Datum} (h : IsScalar t x) : IsValue [t] x
  | array {o : Token} {ts : List Token} {xs : List Datum} (ho : o.kind = .openArray)
      (h : Enclosed IsValue .closeArray ts xs) : IsValue (o :: ts) (.list xs)
  | object {o : Token} {ts : List Token} {ms : List (Text × Datum)} (ho : o.kind = .openObject)
      (h : Enclosed IsMember .closeObject ts ms) : IsValue (o :: ts) (.object (Datum.record ms))

/-- The tokens are a member of an object. -/
inductive IsMember : List Token → Text × Datum → Prop
  | mk {k colon : Token} {w : Text} {ts : List Token} {x : Datum} (hkind : k.kind = .string)
      (htext : k.text = some w) (hcolon : colon.kind = .colon) (h : IsValue ts x) :
      IsMember (k :: colon :: ts) (w, x)

end

/-- The tokens are one value, and there may be white space behind it. -/
def IsDocument (ts : List Token) (x : Datum) : Prop :=
  IsValue ts x ∨ ∃ us w, ts = us ++ [w] ∧ w.kind = .trailingWhitespace ∧ IsValue us x

/-! ### From left to right -/

section Front

variable {α : Type} {P : List Token → α → Prop} {closer : Token.Kind} {t : Token} {ts : List Token}

/-- The tokens start with a part, and the rest is as asked. -/
def Starts (P : List Token → α → Prop) (rest : α → List Token → Prop) (ts : List Token) : Prop :=
  ∃ us y vs, ts = us ++ vs ∧ P us y ∧ rest y vs

/-- The tokens start with one of the kind, and the rest is as asked. -/
def Symbol (kind : Token.Kind) (rest : List Token → Prop) : List Token → Prop
  | []      => False
  | t :: ts => t.kind = kind ∧ rest ts

/-- Behind a part there is the closing bracket, or a comma and more parts. -/
def Goes (P : List Token → α → Prop) (closer : Token.Kind) (rest : List α → List Token → Prop)
    (ts : List Token) : Prop :=
  Symbol closer (rest []) ts ∨ Symbol .comma (Starts (Separated P) fun xs => Symbol closer (rest xs)) ts

@[simp] theorem symbol_cons {kind : Token.Kind} {rest : List Token → Prop} :
    Symbol kind rest (t :: ts) ↔ t.kind = kind ∧ rest ts := Iff.rfl

theorem goes_closer {rest : List α → List Token → Prop} (hclose : t.kind = closer)
    (hne : closer ≠ .comma) : Goes P closer rest (t :: ts) ↔ rest [] ts := by
  rw [Goes, symbol_cons, symbol_cons, hclose]
  simp [hne]

theorem goes_comma {rest : List α → List Token → Prop} (hcomma : t.kind = .comma)
    (hne : closer ≠ .comma) : Goes P closer rest (t :: ts) ↔
      Starts (Separated P) (fun xs => Symbol closer (rest xs)) ts := by
  rw [Goes, symbol_cons, symbol_cons, hcomma]
  simp [hne.symm]

theorem not_goes {rest : List α → List Token → Prop} (hclose : t.kind ≠ closer)
    (hcomma : t.kind ≠ .comma) : ¬ Goes P closer rest (t :: ts) := by
  rintro (h | h)
  · exact hclose h.1
  · exact hcomma h.1

theorem starts_enclosed {rest : List α → List Token → Prop} :
    Starts (Enclosed P closer) rest ts ↔
      Symbol closer (rest []) ts ∨ Starts (Separated P) (fun xs => Symbol closer (rest xs)) ts := by
  constructor
  · rintro ⟨us, xs, vs, rfl, h, hrest⟩
    cases h with
    | empty hc => exact .inl ⟨hc, hrest⟩
    | parts h hc => exact .inr ⟨_, xs, _, List.append_assoc _ _ _, h, hc, hrest⟩
  · rintro (h | ⟨us, xs, vs, rfl, h, hclose⟩)
    · cases ts with
      | nil => exact h.elim
      | cons c ts => exact ⟨[c], [], ts, rfl, .empty h.1, h.2⟩
    · cases vs with
      | nil => exact hclose.elim
      | cons c vs =>
        exact ⟨us ++ [c], xs, vs, (List.append_assoc us [c] vs).symm, .parts h hclose.1, hclose.2⟩

/-- Separated parts are one part, and then the closing bracket or more. -/
theorem starts_separated {rest : List α → List Token → Prop} :
    Starts (Separated P) (fun xs => Symbol closer (rest xs)) ts ↔
      Starts P (fun x => Goes P closer fun xs => rest (x :: xs)) ts := by
  constructor
  · rintro ⟨us, xs, vs, rfl, h, hclose⟩
    cases h with
    | one h => exact ⟨us, _, vs, rfl, h, .inl hclose⟩
    | more h hcomma hmore =>
      exact ⟨_, _, _, List.append_assoc _ _ _, h, .inr ⟨hcomma, _, _, _, rfl, hmore, hclose⟩⟩
  · rintro ⟨us, x, vs, rfl, h, hclose | hcomma⟩
    · exact ⟨us, [x], vs, rfl, .one h, hclose⟩
    · cases vs with
      | nil => exact hcomma.elim
      | cons c vs =>
        obtain ⟨hc, ws, xs, zs, rfl, hmore, hclose⟩ := hcomma
        exact ⟨us ++ c :: ws, x :: xs, zs, (List.append_assoc us (c :: ws) zs).symm,
          .more h hc hmore, hclose⟩

end Front

variable {t : Token} {ts : List Token}

theorem not_isValue_nil {x : Datum} : ¬ IsValue [] x := by
  intro h
  cases h

theorem starts_value_nil : ¬ Starts IsValue rest [] := by
  rintro ⟨us, y, vs, h, hv, -⟩
  obtain ⟨rfl, rfl⟩ := List.append_eq_nil_iff.1 h.symm
  exact not_isValue_nil hv

/-- A value starts with a scalar, or an opening bracket. -/
theorem starts_value : Starts IsValue rest (t :: ts) ↔ (∃ y, IsScalar t y ∧ rest y ts) ∨
      t.kind = .openArray ∧ Starts (Enclosed IsValue .closeArray) (fun xs => rest (.list xs)) ts ∨
      t.kind = .openObject ∧
        Starts (Enclosed IsMember .closeObject) (fun ms => rest (.object (Datum.record ms))) ts := by
  constructor
  · rintro ⟨us, y, vs, h, hv, hrest⟩
    cases hv with
    | scalar hscalar =>
      obtain ⟨rfl, rfl⟩ := List.cons.inj h
      exact .inl ⟨y, hscalar, hrest⟩
    | array ho hinside =>
      obtain ⟨rfl, rfl⟩ := List.cons.inj h
      exact .inr (.inl ⟨ho, _, _, vs, rfl, hinside, hrest⟩)
    | object ho hinside =>
      obtain ⟨rfl, rfl⟩ := List.cons.inj h
      exact .inr (.inr ⟨ho, _, _, vs, rfl, hinside, hrest⟩)
  · rintro (⟨y, hscalar, hrest⟩ | ⟨ho, us, xs, vs, rfl, h, hrest⟩ |
      ⟨ho, us, ms, vs, rfl, h, hrest⟩)
    · exact ⟨[t], y, ts, rfl, .scalar hscalar, hrest⟩
    · exact ⟨t :: us, _, vs, rfl, .array ho h, hrest⟩
    · exact ⟨t :: us, _, vs, rfl, .object ho h, hrest⟩

theorem IsScalar.kind {x : Datum} (h : IsScalar t x) :
    t.kind = .name ∨ t.kind = .number ∨ t.kind = .string := by
  cases h with
  | false hkind | null hkind | true hkind => exact .inl hkind
  | number hkind => exact .inr (.inl hkind)
  | string hkind => exact .inr (.inr hkind)

theorem IsScalar.unique {x y : Datum} (hx : IsScalar t x) (hy : IsScalar t y) : x = y := by
  cases hx <;> cases hy <;> simp_all [Text.ofString, Rune.ofChar]

/-! The first token decides which of the three it is. -/

theorem starts_scalar {x : Datum} (h : IsScalar t x) :
    Starts IsValue rest (t :: ts) ↔ rest x ts := by
  rw [starts_value]
  constructor
  · rintro (⟨y, hy, hrest⟩ | ⟨ho, -⟩ | ⟨ho, -⟩)
    · rwa [h.unique hy]
    · exact absurd h.kind (by simp [ho])
    · exact absurd h.kind (by simp [ho])
  · exact fun hrest => .inl ⟨x, h, hrest⟩

theorem starts_array (ho : t.kind = .openArray) : Starts IsValue rest (t :: ts) ↔
      Starts (Enclosed IsValue .closeArray) (fun xs => rest (.list xs)) ts := by
  rw [starts_value]
  constructor
  · rintro (⟨y, hy, -⟩ | ⟨-, hinside⟩ | ⟨ho', -⟩)
    · exact absurd hy.kind (by simp [ho])
    · exact hinside
    · cases ho.symm.trans ho'
  · exact fun hinside => .inr (.inl ⟨ho, hinside⟩)

theorem starts_object (ho : t.kind = .openObject) : Starts IsValue rest (t :: ts) ↔
      Starts (Enclosed IsMember .closeObject) (fun ms => rest (.object (Datum.record ms))) ts := by
  rw [starts_value]
  constructor
  · rintro (⟨y, hy, -⟩ | ⟨ho', -⟩ | ⟨-, hinside⟩)
    · exact absurd hy.kind (by simp [ho])
    · cases ho.symm.trans ho'
    · exact hinside
  · exact fun hinside => .inr (.inr ⟨ho, hinside⟩)

theorem not_starts_value (hscalar : ∀ y, ¬ IsScalar t y) (harray : t.kind ≠ .openArray)
    (hobject : t.kind ≠ .openObject) : ¬ Starts IsValue rest (t :: ts) := by
  rw [starts_value]
  rintro (⟨y, hy, -⟩ | ⟨ho, -⟩ | ⟨ho, -⟩)
  · exact hscalar y hy
  · exact harray ho
  · exact hobject ho

theorem starts_member_nil {rest : Text × Datum → List Token → Prop} : ¬ Starts IsMember rest [] := by
  rintro ⟨us, m, vs, h, hm, -⟩
  cases hm
  cases h

/-- A member starts with its key and a colon. -/
theorem starts_member {rest : Text × Datum → List Token → Prop} :
    Starts IsMember rest (t :: ts) ↔ t.kind = .string ∧ ∃ w, t.text = some w ∧
      Symbol .colon (Starts IsValue fun y => rest (w, y)) ts := by
  constructor
  · rintro ⟨us, m, vs, h, hm, hrest⟩
    cases hm with
    | mk hkind htext hcolon hv =>
      obtain ⟨rfl, rfl⟩ := List.cons.inj h
      exact ⟨hkind, _, htext, hcolon, _, _, vs, rfl, hv, hrest⟩
  · rintro ⟨hkind, w, htext, hcolon⟩
    cases ts with
    | nil => exact hcolon.elim
    | cons c ts =>
      obtain ⟨hc, us, y, vs, rfl, hv, hrest⟩ := hcolon
      exact ⟨t :: c :: us, (w, y), vs, rfl, .mk hkind htext hc hv, hrest⟩

/-! ### What a value says -/

section Parts

variable {α : Type} {P : List Token → α → Prop} {closer : Token.Kind} {xs : List α} {x : α}

theorem Separated.part (h : Separated P ts xs) (hx : x ∈ xs) : ∃ us, P us x ∧ us.Sublist ts := by
  induction h with
  | @one ts y h =>
    obtain rfl := List.mem_singleton.1 hx
    exact ⟨ts, h, .refl ts⟩
  | @more ts us comma y ys h _ _ ih =>
    rcases List.mem_cons.1 hx with rfl | hx
    · exact ⟨ts, h, List.sublist_append_left ts _⟩
    · obtain ⟨vs, hvs, hsub⟩ := ih hx
      exact ⟨vs, hvs, (hsub.cons comma).trans (List.sublist_append_right ts _)⟩

theorem Enclosed.part (h : Enclosed P closer ts xs) (hx : x ∈ xs) : ∃ us, P us x ∧ us.Sublist ts := by
  cases h with
  | empty => cases hx
  | parts h _ =>
    obtain ⟨us, hus, hsub⟩ := h.part hx
    exact ⟨us, hus, hsub.trans (List.sublist_append_left _ _)⟩

end Parts

/-- A value says no exceptions, and only texts that stand in it; keys are texts. -/
theorem IsValue.madeOf {x : Datum} (h : IsValue ts x) :
    x.MadeOf (fun _ => True) fun w => ∃ t ∈ ts, t.text = some w := by
  -- the parts of a value have fewer tokens
  induction hn : ts.length using Nat.strong_induction_on generalizing ts x with
  | _ n ih =>
    subst hn
    cases h with
    | @scalar t x hscalar =>
      cases hscalar with
      | false | true => exact .bool _
      | null => exact .null
      | number => exact .number trivial
      | string _ htext => exact .text ⟨t, List.mem_singleton_self t, htext⟩
    | @array o us xs ho hinside =>
      refine .list fun x hx => ?_
      obtain ⟨vs, hvs, hsub⟩ := hinside.part hx
      refine (ih vs.length (Nat.lt_succ_of_le hsub.length_le) hvs rfl).mono (fun _ h => h) ?_
      rintro w ⟨t, ht, hw⟩
      exact ⟨t, List.mem_cons_of_mem o (hsub.subset ht), hw⟩
    | @object o us ms ho hinside =>
      refine .object (List.forall_mem_map.2 fun m hm => ?_) (List.forall_mem_map.2 fun m hm => ?_)
      · obtain ⟨vs, hvs, hsub⟩ := hinside.part (mem_of_mem_merged hm)
        cases hvs with
        | @mk k _ w _ _ _ htext _ _ =>
          exact ⟨w, rfl, k, List.mem_cons_of_mem o (hsub.subset List.mem_cons_self), htext⟩
      · obtain ⟨vs, hvs, hsub⟩ := hinside.part (mem_of_mem_merged hm)
        cases hvs with
        | @mk k colon w vs x _ _ _ hvs =>
          have hsub : (k :: colon :: vs).Sublist us := hsub
          have hsub := ((List.sublist_cons_self colon vs).cons k).trans hsub
          refine (ih vs.length (Nat.lt_succ_of_le hsub.length_le) hvs rfl).mono (fun _ h => h) ?_
          rintro w ⟨t, ht, hw⟩
          exact ⟨t, List.mem_cons_of_mem o (hsub.subset ht), hw⟩

/-! ### The end of a document -/

theorem Enclosed.getLast? {α : Type} {P : List Token → α → Prop} {closer : Token.Kind} {xs : List α}
    (h : Enclosed P closer ts xs) : ∃ c, c.kind = closer ∧ ∀ o, (o :: ts).getLast? = some c := by
  cases h with
  | @empty c hc => exact ⟨c, hc, fun o => rfl⟩
  | @parts us c xs _ hc =>
    refine ⟨c, hc, fun o => ?_⟩
    rw [← List.cons_append, List.getLast?_concat]

/-- A value does not end in white space. -/
theorem IsValue.getLast? {x : Datum} (h : IsValue ts x) (hlast : ts.getLast? = some t) :
    t.kind ≠ .trailingWhitespace := by
  cases h with
  | scalar hscalar =>
    obtain rfl := Option.some.inj hlast
    rcases hscalar.kind with hkind | hkind | hkind <;> simp [hkind]
  | array _ hinside =>
    obtain ⟨c, hc, hend⟩ := hinside.getLast?
    obtain rfl := Option.some.inj ((hend _).symm.trans hlast)
    simp [hc]
  | object _ hinside =>
    obtain ⟨c, hc, hend⟩ := hinside.getLast?
    obtain rfl := Option.some.inj ((hend _).symm.trans hlast)
    simp [hc]

theorem withoutTrailing_concat {us : List Token} {w : Token} (hw : w.kind = .trailingWhitespace) :
    withoutTrailing ((us ++ [w]).map .token) = us.map .token := by
  have htrailing : isTrailing (.token w) = true := decide_eq_true hw
  rw [withoutTrailing, List.getLast?_map, List.getLast?_concat, Option.map_some]
  dsimp only
  rw [if_pos htrailing, List.map_append, List.map_singleton, List.dropLast_concat]

theorem withoutTrailing_eq_self {us : List Token} {w : Token} (hw : w.kind ≠ .trailingWhitespace) :
    withoutTrailing ((us ++ [w]).map .token) = (us ++ [w]).map .token := by
  have htrailing : ¬ isTrailing (.token w) = true := by simpa [isTrailing] using hw
  rw [withoutTrailing, List.getLast?_map, List.getLast?_concat, Option.map_some]
  dsimp only
  rw [if_neg htrailing]

/-- **White space at the end makes no difference.** -/
theorem withoutTrailing_tokens (ts : List Token) : ∃ us : List Token,
    withoutTrailing (ts.map .token) = us.map .token ∧ us ⊆ ts ∧
      (∀ t ∈ ts, t.kind ≠ .trailingWhitespace → t ∈ us) ∧ ∀ x, IsDocument ts x ↔ IsValue us x := by
  rcases List.eq_nil_or_concat ts with rfl | ⟨us, w, rfl⟩
  · refine ⟨[], rfl, List.Subset.refl _, fun t ht _ => ht, fun x => or_iff_left ?_⟩
    rintro ⟨us, w, h, -⟩
    exact List.append_ne_nil_of_right_ne_nil us (List.cons_ne_nil w []) h.symm
  have hlast : (us ++ [w]).getLast? = some w := List.getLast?_concat
  rw [List.concat_eq_append]
  by_cases hw : w.kind = .trailingWhitespace
  · refine ⟨us, withoutTrailing_concat hw, List.subset_append_left us [w], fun t ht hkind => ?_,
      fun x => ⟨?_, ?_⟩⟩
    · rcases List.mem_append.1 ht with ht | ht
      · exact ht
      · rw [List.mem_singleton.1 ht] at hkind
        exact absurd hw hkind
    · rintro (h | ⟨us', w', h, -, hvalue⟩)
      · exact absurd hw (h.getLast? hlast)
      · rwa [(List.append_inj' h rfl).1]
    · exact fun h => .inr ⟨us, w, rfl, hw, h⟩
  · refine ⟨us ++ [w], withoutTrailing_eq_self hw, List.Subset.refl _, fun t ht _ => ht,
      fun x => or_iff_left ?_⟩
    rintro ⟨us', w', h, hw', -⟩
    rw [List.singleton_inj.1 (List.append_inj' h rfl).2] at hw
    exact hw hw'

end FilterShell.Json
