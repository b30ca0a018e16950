import FilterShell.Proofs.Eval.Outputs

/-!
# Outputs one after the other

A comma starts its right operand and then the left one, and passes on what flows out of the left one and
then, if that ends, of the right one, as far as the first exception.  Filters with commas between them may be
grouped by parentheses as one likes: the last one is run first in any case, and what flows out is cut at the
same place (`Filter.Joins.gathers`).
-/

namespace FilterShell

/-! ### Cutting again -/

theorem cutAtException_cut_append (vs more : List Value) :
    cutAtException (cutAtException vs ++ more) = cutAtException (vs ++ more) := by
  induction vs with
  | nil => rfl
  | cons v vs ih =>
    cases hv : v.isException with
    | true => simp [cutAtException, hv]
    | false => simp [cutAtException, hv, ih]

theorem cutAtException_append_cut (vs more : List Value) :
    cutAtException (vs ++ cutAtException more) = cutAtException (vs ++ more) := by
  induction vs with
  | nil => simpa using cutAtException_cut_append more []
  | cons v vs ih => rw [List.cons_append, List.cons_append, cutAtException, cutAtException, ih]

theorem cutAtException_cut (vs : List Value) : cutAtException (cutAtException vs) = cutAtException vs := by
  simpa using cutAtException_cut_append vs []

namespace Outflow

theorem cut_cut (o : Outflow) : o.cut.cut = o.cut := by
  simp [cut, cutAtException_cut, any_cutAtException]

/-- What is cut off does not count in front of others. -/
theorem cut_cut_andThen (a b : Outflow) : (a.cut.andThen b).cut = (a.andThen b).cut := by
  obtain ⟨us, closed⟩ := a
  obtain ⟨vs, closed'⟩ := b
  cases hex : us.any Value.isException with
  | false =>
    have hself : cutAtException us = us := cutAtException_eq_self (by simpa using hex)
    simp [cut, hself, hex]
  | true =>
    have hstop : ∀ more, cutAtException (us ++ more) = cutAtException us :=
      cutAtException_stops (by simpa using hex)
    cases closed <;>
      simp [cut, andThen, hex, any_cutAtException, cutAtException_cut_append, hstop]

/-- Nor does it count behind them. -/
theorem cut_andThen_cut (a b : Outflow) : (a.andThen b.cut).cut = (a.andThen b).cut := by
  obtain ⟨us, closed⟩ := a
  obtain ⟨vs, closed'⟩ := b
  cases closed with
  | false => simp [andThen]
  | true =>
    simp only [andThen, cut, if_true, List.any_append, any_cutAtException, cutAtException_append_cut,
      mk.injEq, true_and]
    cases us.any Value.isException <;> cases vs.any Value.isException <;> simp

/-- Of two outflows only what is left when they are cut counts. -/
theorem cut_andThen_congr {a b a' b' : Outflow} (ha : a.cut = a'.cut) (hb : b.cut = b'.cut) :
    (a.andThen b).cut = (a'.andThen b').cut := by
  rw [← cut_cut_andThen, ← cut_andThen_cut, ha, hb, cut_andThen_cut, cut_cut_andThen]

end Outflow

namespace Filter

/-! ### Filters on one input -/

/-- What flows out of filters on the same input, one after the other, when the last one is run first; and the
store after them. -/
def gathered (input : Stream) : List Filter → Store → Outflow × Store
  | [], s      => (⟨[], true⟩, s)
  | f :: fs, s =>
    let later := gathered input fs s
    ((f.outflow input later.2).andThen later.1, ((f.run input).run later.2).2)

theorem gathered_append (input : Stream) (fs gs : List Filter) (s : Store) :
    gathered input (fs ++ gs) s =
      ((gathered input fs (gathered input gs s).2).1.andThen (gathered input gs s).1,
        (gathered input fs (gathered input gs s).2).2) := by
  induction fs with
  | nil => rfl
  | cons f fs ih => simp [gathered, ih, Outflow.andThen_assoc]

/-- The filter is the filters of the list with commas between them, grouped by parentheses or not. -/
inductive Joins : Filter → List Filter → Prop
  | one (f : Filter) : Joins f [f]
  | parens {f : Filter} {fs : List Filter} (h : Joins f fs) : Joins (.parens f) fs
  | comma {f g : Filter} {fs gs : List Filter} (hf : Joins f fs) (hg : Joins g gs) :
      Joins (.binary .comma f g) (fs ++ gs)

variable {f g : Filter} {fs : List Filter} {input : Stream}

theorem run_parens (hcalm : ∀ v ∈ input.values, v.isException = false)
    (hcomplete : input.isComplete = true) (s : Store) :
    ((parens f).run input).run s =
      (input.readInto (f.outflow input.forwarded s).cut, ((f.run input.forwarded).run s).2) :=
  Yields.run hcalm hcomplete (yields_ofRun ((f.run input.forwarded).run s).1 _)

/-- A comma gathers the outputs of two filters. -/
theorem run_comma (hcalm : ∀ v ∈ input.values, v.isException = false)
    (hcomplete : input.isComplete = true) (s : Store) :
    ((binary .comma f g).run input).run s =
      (input.readInto (gathered input.forwarded [f, g] s).1.cut,
        (gathered input.forwarded [f, g] s).2) := by
  let second := (g.run input.forwarded).run s
  let first := (f.run input.forwarded).run second.2
  have hyields : Yields (Generate.comma f.run g.run input.forwarded) s
      (first.1.outflow.andThen second.1.outflow) :=
    (yields_ofRun second.1 first.2).andThen first.1
  have hstore : ((Generate.comma f.run g.run input.forwarded).run s).2 = first.2 := by
    have hrun : (Generate.comma f.run g.run input.forwarded).run s =
        ((Produced.ofRun first.1).andThen (return .ofRun second.1)).run first.2 := rfl
    rw [hrun, Produced.andThen]
    split <;> rfl
  have hboth : gathered input.forwarded [f, g] s =
      (first.1.outflow.andThen second.1.outflow, first.2) := by
    simp [gathered, outflow, Outflow.andThen_nil, first, second]
  rw [hboth, ← hstore]
  exact Yields.run hcalm hcomplete hyields

/-- The filter gives what the filters give one after the other, as far as the first exception, and leaves the
same store. -/
def Gathers (input : Stream) (f : Filter) (fs : List Filter) : Prop :=
  ∀ s, (f.outflow input s).cut = (gathered input fs s).1.cut ∧
    ((f.run input).run s).2 = (gathered input fs s).2

/-- Two groups give what all their filters give. -/
theorem Gathers.pair {gs : List Filter} (hf : Gathers input f fs) (hg : Gathers input g gs) (s : Store) :
    (gathered input [f, g] s).1.cut = (gathered input (fs ++ gs) s).1.cut ∧
      (gathered input [f, g] s).2 = (gathered input (fs ++ gs) s).2 := by
  obtain ⟨hright, hmiddle⟩ := hg s
  obtain ⟨hleft, hlast⟩ := hf ((g.run input).run s).2
  rw [gathered_append, ← hmiddle]
  simp only [gathered, Outflow.andThen_nil]
  exact ⟨Outflow.cut_andThen_congr hleft hright, hlast⟩

/-- **Grouping makes no difference**: what flows out is cut where that of all the filters is. -/
theorem Joins.gathers (h : f.Joins fs) (hcalm : ∀ v ∈ input.values, v.isException = false)
    (hcomplete : input.isComplete = true) (hlive : input.drained = false) : Gathers input f fs := by
  have hforwarded : input.forwarded = input := by rw [Stream.forwarded, ← hlive]
  induction h with
  | one f => exact fun s => by simp [gathered, Outflow.andThen_nil]
  | parens _ ih =>
    intro s
    rw [outflow, run_parens hcalm hcomplete, hforwarded]
    exact ⟨(Outflow.cut_cut _).trans (ih s).1, (ih s).2⟩
  | comma _ _ ihf ihg =>
    intro s
    rw [outflow, run_comma hcalm hcomplete, hforwarded]
    obtain ⟨houtflow, hstore⟩ := ihf.pair ihg s
    exact ⟨(Outflow.cut_cut _).trans houtflow, hstore⟩

/-- What filters give in two groups. -/
theorem Joins.run_comma {gs : List Filter} (hf : f.Joins fs) (hg : g.Joins gs)
    (hcalm : ∀ v ∈ input.values, v.isException = false) (hcomplete : input.isComplete = true)
    {all : Outflow} {s s' : Store} (hall : gathered input.forwarded (fs ++ gs) s = (all, s')) :
    ((binary .comma f g).run input).run s = (input.readInto all.cut, s') := by
  have hleft : Gathers input.forwarded f fs := hf.gathers hcalm hcomplete rfl
  obtain ⟨houtflow, hstore⟩ := hleft.pair (hg.gathers hcalm hcomplete rfl) s
  rw [Filter.run_comma hcalm hcomplete, houtflow, hstore, hall]

end Filter

end FilterShell
