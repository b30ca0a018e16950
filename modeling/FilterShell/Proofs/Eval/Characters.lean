import FilterShell.Proofs.Decimal.Whole
import FilterShell.Proofs.Eval.Silent
import FilterShell.Proofs.Value.Drained

/-!
# Strings and the numbers of their characters

`explode` gives the numbers of the characters of strings, and `implode` the string of the characters with
given numbers.  One after the other, they join strings, or leave the numbers as they were.  What a new string
says is asked of the store that is left: `Value.text?`.
-/

namespace FilterShell

variable {values : List Value} {ns : List Nat} {texts : List Text}

open Reading (Gives wholeText)

/-- The numbers of characters are those of code points that are no surrogates. -/
theorem Rune.isValidChar_iff (r : Rune) : r.code.isValidChar ↔ r.isSurrogate = false := by
  have hbound := r.lt_bound
  rw [isSurrogate, Bool.and_eq_false_iff, decide_eq_false_iff_not, decide_eq_false_iff_not, Nat.isValidChar]
  omega

theorem Text.isValidChar_codes (h : ∀ t ∈ texts, t.isWellFormed) :
    ∀ n ∈ Text.codes texts.flatten, n.isValidChar := by
  intro n hn
  obtain ⟨r, hr, rfl⟩ := List.mem_map.1 hn
  obtain ⟨t, ht, hrt⟩ := List.mem_flatten.1 hr
  have hwell := List.all_eq_true.1 (h t ht) r hrt
  exact r.isValidChar_iff.2 (by simpa using hwell)

/-! ### The text of a string -/

namespace Value

/-- The text of a string whose end can be reached. -/
def text? (s : Store) : Value → Option Text
  | .string id pieces => ((s.get id).stop? pieces.length).map fun n => (pieces.take n).flatten
  | _                 => none

/-- Reading a string takes it to its end, and then it tells what it told. -/
theorem text?_read {s : Store} {v : Value} {t : Text} (h : v.text? s = some t) :
    ∃ id pieces s', v = .string id pieces ∧ Gives s (wholeText id pieces) t s' ∧ s'.next = s.next ∧
      s.SameBut id s' ∧ v.text? s' = some t := by
  cases v with
  | string id pieces =>
    obtain ⟨n, hstop, rfl⟩ := Option.map_eq_some_iff.1 h
    obtain ⟨s', hdrain, hnext, hsame, hstop'⟩ := Reading.drain_stop hstop
    refine ⟨id, pieces, s', rfl, hdrain.bind rfl, hnext, hsame, ?_⟩
    exact Option.map_eq_some_iff.2 ⟨n, hstop', rfl⟩
  | _ => cases h

/-- A string that has not been read on tells what it told. -/
theorem text?_congr {s s' : Store} {v : Value} (h : ∀ i, v.id? = some i → s'.get i = s.get i) :
    v.text? s' = v.text? s := by
  cases v with
  | string id pieces => rw [text?, text?, h id rfl]
  | _ => rfl

/-- A new string tells all that was put into it. -/
theorem text?_new {s : Store} {id : Nat} (h : s.get id = {}) (pieces : List Text) :
    (string id pieces).text? s = some pieces.flatten := by
  simp [text?, h, Progress.stop?, Progress.end?]

theorem calm_of_texts {s : Store}
    (h : values.map (text? s) = texts.map some) : ∀ v ∈ values, v.isException = false := by
  intro v hv
  have hmem : v.text? s ∈ texts.map some := h ▸ List.mem_map_of_mem hv
  obtain ⟨t, -, ht⟩ := List.mem_map.1 hmem
  obtain ⟨id, pieces, -, rfl, -⟩ := text?_read ht.symm
  rfl

/-! ### Numbers of characters -/

/-- A number that is equal to a natural number, however it is written. -/
def Counts (v : Value) (n : Nat) : Prop := ∃ id d, v = .number id d ∧ d.value = ((n : ℚ) : WithTop ℚ)

theorem counts_ofNat (n : Nat) : (ofNat n).Counts n := by
  refine ⟨0, .ofNat n, rfl, ?_⟩
  simp [Decimal.value, Decimal.ofNat, Decimal.signed]

theorem forall₂_counts_ofNat (ns : List Nat) : List.Forall₂ Counts (ns.map ofNat) ns :=
  List.forall₂_map_left_iff.2 (List.forall₂_same.2 fun n _ => counts_ofNat n)

theorem calm_of_counts (h : List.Forall₂ Counts values ns) :
    ∀ v ∈ values, v.isException = false := by
  induction h with
  | nil => exact List.forall_mem_nil _
  | cons hv _ ih =>
    obtain ⟨id, d, rfl, -⟩ := hv
    exact List.forall_mem_cons.2 ⟨rfl, ih⟩

end Value

/-- An identity names one container. -/
def NamedOnce (values : List Value) : Prop :=
  ∀ v ∈ values, ∀ w ∈ values, v.id?.isSome → v.id? = w.id? → v = w

/-- The values are in use, so new containers get other identities. -/
structure Store.Holds (s : Store) (values : List Value) : Prop where
  unread : ∀ i, s.next ≤ i → s.get i = {}
  given  : ∀ v ∈ values, ∀ i, v.id? = some i → i < s.next
  named  : NamedOnce values

/-! ### One function -/

namespace Builtin

/-- **`explode` gives the numbers of all characters**, of one string after the other. -/
theorem run_explode {s : Store}
    (hread : values.map (Value.text? s) = texts.map some) (hnamed : NamedOnce values) :
    ∃ s', (explode values).run s = (.ofValues ((Text.codes texts.flatten).map .ofNat), s') ∧
      s'.next = s.next ∧ ∀ i, (∀ v ∈ values, v.id? ≠ some i) → s'.get i = s.get i := by
  induction values generalizing texts s with
  | nil =>
    obtain rfl : texts = [] := by simpa using hread.symm
    exact ⟨s, rfl, rfl, fun _ _ => rfl⟩
  | cons v values ih =>
    obtain _ | ⟨t, texts⟩ := texts
    · cases hread
    obtain ⟨hv, hvalues⟩ := List.cons.inj hread
    obtain ⟨id, pieces, s₁, rfl, hwhole, hnext₁, hsame, hv₁⟩ := Value.text?_read hv
    -- reading one string leaves what the others say, the same string again included
    have hkept : ∀ w ∈ values, w.text? s₁ = w.text? s := by
      intro w hw
      by_cases hid : w.id? = some id
      · obtain rfl := hnamed _ List.mem_cons_self w (List.mem_cons_of_mem _ hw) rfl hid.symm
        rw [hv, hv₁]
      · refine Value.text?_congr fun i hi => hsame i ?_
        rintro rfl
        exact hid hi
    have hread₁ : values.map (Value.text? s₁) = texts.map some := by
      rw [List.map_congr_left hkept]
      exact hvalues
    have hnamed₁ : NamedOnce values := fun v hv w hw =>
      hnamed v (List.mem_cons_of_mem _ hv) w (List.mem_cons_of_mem _ hw)
    obtain ⟨s', hrun, hnext, hget⟩ := ih hread₁ hnamed₁
    have hfirst : (explode (.string id pieces :: values)).run s =
        ({ ((explode values).run s₁).1 with
          documents := (codes t).documents ++ ((explode values).run s₁).1.documents },
          ((explode values).run s₁).2) := by
      rw [explode, run_andThen, show (wholeText id pieces).run.run s = (.ok t, s₁) from hwhole]
      rfl
    refine ⟨s', ?_, hnext.trans hnext₁, fun i hi => ?_⟩
    · rw [hfirst, hrun]
      simp [Produced.ofValues, codes, Text.codes, Function.comp_def]
    · obtain ⟨hid, hvalues⟩ := List.forall_mem_cons.1 hi
      rw [hget i hvalues]
      refine hsame i ?_
      rintro rfl
      exact hid rfl

/-- Numbers of characters are imploded to these. -/
theorem implodedPieces_counts
    (hvalues : List.Forall₂ Value.Counts values ns) (hns : ∀ n ∈ ns, n.isValidChar) :
    ∃ t : Text, t.codes = ns ∧ implodedPieces true values = (t.map fun c => [c], {}) := by
  induction hvalues with
  | nil => exact ⟨[], rfl, rfl⟩
  | @cons v n values ns hv hvalues ih =>
    obtain ⟨hn, hns⟩ := List.forall_mem_cons.1 hns
    obtain ⟨t, rfl, hpieces⟩ := ih hns
    obtain ⟨id, d, rfl, hd⟩ := hv
    have hbound : n < 0x110000 := by
      rcases hn with h | h
      · omega
      · exact h.2
    have hprecise : n < Nat.pow 10 Decimal.precision := hbound.trans (by decide)
    obtain ⟨hwhole, hint⟩ := Decimal.whole_of_value hd hprecise
    have hsmall : ((n : Int) > maxCode || (n : Int) < -maxCode - 1) = false := by
      rw [show maxCode = 2147483647 from rfl, Bool.or_eq_false_iff, decide_eq_false_iff_not,
        decide_eq_false_iff_not]
      omega
    have hrune : Rune.ofNat? (n : Int).toNat = some ⟨n, hbound⟩ := dif_pos hbound
    have hscalar : Rune.isSurrogate ⟨n, hbound⟩ = false := (Rune.isValidChar_iff _).1 hn
    have hnonneg : ¬ (n : Int) < 0 := by omega
    refine ⟨⟨n, hbound⟩ :: t, rfl, ?_⟩
    simp only [implodedPieces, hwhole, hint, hsmall, hrune, hscalar, hnonneg, hpieces]
    rfl

/-- **`implode` gives one string**, of the characters with the numbers. -/
theorem run_implode (hvalues : List.Forall₂ Value.Counts values ns)
    (hns : ∀ n ∈ ns, n.isValidChar) (env : Environment) {s : Store} (hnew : s.get s.next = {}) :
    ∃ string t s', (implode { values, env }).run s = (.ofValues [string], s') ∧ t.codes = ns ∧
      string.text? s' = some t := by
  obtain ⟨t, ht, hpieces⟩ := implodedPieces_counts hvalues hns
  have hrun : (implode { values, env }).run s =
      (.ofValues [.string s.next ([] :: t.map fun c => [c])], { s with next := s.next + 1 }) := by
    rw [implode]
    simp only [hpieces]
    rfl
  refine ⟨_, t, _, hrun, ht, ?_⟩
  have hget : ({ s with next := s.next + 1 } : Store).get s.next = {} := hnew
  rw [Value.text?_new hget, List.flatten_cons, List.nil_append, ← List.flatMap_def, List.flatMap_singleton']

end Builtin

/-! ### Both functions -/

namespace Filter

variable {f g : Filter} {input : Stream} {first second : Run} {vs : List Value} {s s' s₁ s₂ : Store}

/-- A name that is no variable is a built-in function. -/
theorem run_plain {n : Text} {own : String} {g : Generator} (hcomplete : input.isComplete = true)
    (hfree : input.env.locals.lookup n = none)
    (hfind : Builtin.registry.find? n 0 = some ⟨own, fun _ => g⟩)
    (hcalm : ∀ v ∈ input.values, v.isException = false)
    (h : (g input.forwarded).run s = (Produced.ofValues vs, s')) :
    ((name n).run input).run s = (input.readInto ⟨vs, true⟩, s') := by
  have hwithheld : input.env.withheld = {} := by
    simpa [Environment.isComplete] using (Stream.isComplete_iff.1 hcomplete).2
  have hname : (name n).run input = Program.ofBuiltin g input := by
    change Program.name n input = _
    rw [Program.name, hwithheld, hfree]
    simp only [Program.call, hwithheld, List.length_nil, Nat.cast_zero, hfind]
    rfl
  rw [hname, Program.run_ofBuiltin hcalm h, hcomplete]
  rfl

/-- What a pipe does, from what its operands do. -/
theorem run_pipe (hcalm : ∀ v ∈ input.values, v.isException = false) (hcomplete : input.isComplete = true)
    (hfirst : (f.run input.forwarded).run s = (first, s₁))
    (hsecond : (g.run first.stream).run s₁ = (second, s₂)) :
    ((binary .pipe f g).run input).run s = (input.readInto second.outflow.cut, s₂) := by
  have hpipe : (Generate.pipe f.run g.run input.forwarded).run s = (.ofRun second, s₂) := by
    have hrun : (Generate.pipe f.run g.run input.forwarded).run s =
        let first := (f.run input.forwarded).run s
        let second := (g.run first.1.stream).run first.2
        (.ofRun second.1, second.2) := rfl
    rw [hfirst] at hrun
    dsimp only at hrun
    rw [hsecond] at hrun
    exact hrun
  have hyields : Yields (Generate.pipe f.run g.run input.forwarded) s second.outflow :=
    Yields.of_run hpipe (yields_ofRun second s₂)
  refine (Yields.run hcalm hcomplete hyields).trans ?_
  rw [hpipe]

/-- **`explode` and `implode` undo each other.**  Strings whose ends can be reached become one string with the
text of all; numbers of characters, however they are written, come out as equal numbers in the same order. -/
theorem explode_implode_inverse (input : Stream) (s : Store) (hcomplete : input.isComplete = true)
    (hexplode : input.env.locals.lookup (Text.ofString "explode") = none)
    (himplode : input.env.locals.lookup (Text.ofString "implode") = none) (hheld : s.Holds input.values) :
    (∀ texts : List Text, input.values.map (Value.text? s) = texts.map some →
      (∀ t ∈ texts, t.isWellFormed) →
      let result := ((binary .pipe (name "explode") (name "implode")).run input).run s
      ∃ string, result.1.outflow = ⟨[string], true⟩ ∧ string.text? result.2 = some texts.flatten) ∧
    ∀ ns : List Nat, List.Forall₂ Value.Counts input.values ns → (∀ n ∈ ns, n.isValidChar) →
      let result := ((binary .pipe (name "implode") (name "explode")).run input).run s
      List.Forall₂ Value.Counts result.1.outputs ns ∧ result.1.closed = true := by
  have hknown := (Stream.isComplete_iff.1 hcomplete).2
  have hpart : input.forwarded.isComplete = true := hcomplete
  have hnext : ∀ vs, (input.forwarded.readInto ⟨vs, true⟩).stream.isComplete = true :=
    fun vs => Stream.isComplete_iff.2 ⟨rfl, hknown⟩
  constructor
  · intro texts hread hwell result
    have hcalm := Value.calm_of_texts hread
    have hcounts := Value.forall₂_counts_ofNat (Text.codes texts.flatten)
    have hvalid := Text.isValidChar_codes hwell
    obtain ⟨s₁, hexploded, hlast, hget⟩ := Builtin.run_explode hread hheld.named
    -- the new string is none of those that were read
    have hnew : s₁.get s₁.next = {} := by
      rw [hlast, hget, hheld.unread _ le_rfl]
      intro v hv hid
      exact Nat.lt_irrefl _ (hheld.given v hv _ hid)
    obtain ⟨string, t, s₂, himploded, ht, htext⟩ := Builtin.run_implode hcounts hvalid input.env hnew
    have hfirst := run_plain hpart hexplode rfl hcalm hexploded
    have hsecond := run_plain (hnext _) himplode rfl (Value.calm_of_counts hcounts) himploded
    have htexts : [string].map (Value.text? s₂) = [t].map some := by simp [htext]
    have hrun : result = _ := run_pipe hcalm hcomplete hfirst hsecond
    rw [hrun]
    refine ⟨string, ?_, ?_⟩
    · exact congrArg (Outflow.mk · true) (cutAtException_eq_self (Value.calm_of_texts htexts))
    · rw [← Text.codes_inj.1 ht]
      exact htext
  · intro ns hcounts hvalid result
    have hcalm := Value.calm_of_counts hcounts
    obtain ⟨string, t, s₁, himploded, rfl, htext⟩ :=
      Builtin.run_implode hcounts hvalid input.env (hheld.unread _ le_rfl)
    have hread : [string].map (Value.text? s₁) = [t].map some := by simp [htext]
    have hnamed : NamedOnce [string] := by simp [NamedOnce]
    obtain ⟨s₂, hexploded, -, -⟩ := Builtin.run_explode hread hnamed
    rw [List.flatten_singleton] at hexploded
    have hsame : input.forwarded.forwarded = { values := input.values, env := input.env } := by
      rw [Stream.forwarded, Stream.forwarded, (Stream.isComplete_iff.1 hcomplete).1]
    have hfirst := run_plain hpart himplode rfl hcalm (hsame ▸ himploded)
    have hsecond := run_plain (hnext _) hexplode rfl (Value.calm_of_texts hread) hexploded
    have hback := Value.forall₂_counts_ofNat t.codes
    have hrun : result = _ := run_pipe hcalm hcomplete hfirst hsecond
    rw [hrun]
    refine ⟨?_, rfl⟩
    change List.Forall₂ Value.Counts (cutAtException (t.codes.map .ofNat)) t.codes
    rwa [cutAtException_eq_self (Value.calm_of_counts hback)]

/-- Three strings, one of them twice, one empty and one partly read; and numbers written in other ways. -/
theorem explode_implode_inverse_repeated :
    let s : Store := { next := 3, progress := [(2, { taken := 1 })] }
    let strings : Stream :=
      { values := [.string 0 ["ab"], .string 1 [], .string 0 ["ab"], .string 2 ["x", "😀y"]] }
    let texts : List Text := ["ab", [], "ab", "x😀y"]
    let numbers : Stream := { values := [.number 0 (.finite false 1 2), .number 0 (.finite true 0 5),
      .number 0 (.finite false 1285120 (-1))] }
    let joined := ((binary .pipe (name "explode") (name "implode")).run strings).run s
    strings.values.map (Value.text? s) = texts.map some ∧
      (∃ string, joined.1.outflow = ⟨[string], true⟩ ∧ string.text? joined.2 = some texts.flatten) ∧
      List.Forall₂ Value.Counts numbers.values [100, 0, 128512] ∧
      List.Forall₂ Value.Counts ((binary .pipe (name "implode") (name "explode")).outputs numbers s)
        [100, 0, 128512] := by
  intro s strings texts numbers joined
  have hunread : ∀ i, s.next ≤ i → s.get i = {} := by
    intro i hi
    obtain ⟨later, rfl⟩ : ∃ later, i = later + 3 := Nat.exists_eq_add_of_le' hi
    rfl
  have hstrings : s.Holds strings.values :=
    ⟨hunread, by simp [strings, s, Value.id?], by simp [NamedOnce, strings, Value.id?]⟩
  have hnumbers : s.Holds numbers.values :=
    ⟨hunread, by simp [numbers, Value.id?], by simp [NamedOnce, numbers, Value.id?]⟩
  have hcounts : List.Forall₂ Value.Counts numbers.values [100, 0, 128512] := by
    refine .cons ⟨_, _, rfl, ?_⟩ (.cons ⟨_, _, rfl, ?_⟩ (.cons ⟨_, _, rfl, ?_⟩ .nil)) <;>
      norm_num [Decimal.value, Decimal.signed]
  have hjoined := (explode_implode_inverse strings s rfl rfl rfl hstrings).1 texts rfl (by decide)
  have hback := (explode_implode_inverse numbers s rfl rfl rfl hnumbers).2 [100, 0, 128512] hcounts (by decide)
  exact ⟨rfl, hjoined, hcounts, hback.1⟩

end Filter

end FilterShell
