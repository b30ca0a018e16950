import FilterShell.Session.Options

/-!
# The command line is read safely

A command line is a run of options that give filters, and behind them a place where reading ends: an option
that ends it, the end of the arguments, or the first argument of the program.  `Reads` says which arguments
can be read and what they choose; `Asks` says what the whole line asks for.

At every place reading ends, or takes one argument at least (`Reads.step`), so it ends on every command line,
as `Asks` says (`ofArguments_safe`).  The one failure is a `--filter` that is read at the very end
(`LacksFilter`); a `-c` there gives the empty filter (`filter_option_alone`).
-/

namespace FilterShell

variable {arg : Text}

namespace Text

theorem dropStart?_append (s u : Text) : (s ++ u).dropStart? s = some u := by
  induction s with
  | nil => rw [List.nil_append, dropStart?]
  | cons r s ih => rw [List.cons_append, dropStart?, if_pos rfl, ih]

theorem eq_append_of_dropStart? {t s u : Text} (h : t.dropStart? s = some u) : t = s ++ u := by
  induction s generalizing t with
  | nil =>
    rw [dropStart?] at h
    exact Option.some.inj h
  | cons r s ih =>
    cases t with
    | nil => cases h
    | cons q t =>
      rw [dropStart?] at h
      split at h
      · next hq => rw [hq, ih h, List.cons_append]
      · cases h

theorem dropStart?_eq_none {t s : Text} (h : ¬ s <+: t) : t.dropStart? s = none := by
  cases hd : t.dropStart? s with
  | none => rfl
  | some u => exact absurd ⟨u, (eq_append_of_dropStart? hd).symm⟩ h

end Text

namespace Session

/-! ### How words are written -/

namespace Word

/-- An argument that is an option of the program, or starts as one that goes on. -/
def Known (arg : Text) : Prop :=
  (∃ s ∈ ["--", "--filter", "--help"], arg = Text.ofString s)
    ∨ ∃ s ∈ ["-c", "-h", "--filter="], Text.ofString s <+: arg

/-- How a word is written.  A dash alone is no option. -/
def Spelled : Word → Text → Prop
  | .filterNext, arg    => arg = Text.ofString "-c"
  | .filterNeeded, arg  => arg = Text.ofString "--filter"
  | .filter source, arg =>
    (source ≠ [] ∧ arg = Text.ofString "-c" ++ source) ∨ arg = Text.ofString "--filter=" ++ source
  | .help, arg          => arg = Text.ofString "--help" ∨ Text.ofString "-h" <+: arg
  | .stop, arg          => arg = Text.ofString "--"
  | .invalid, arg       => Text.ofString "-" <+: arg ∧ arg ≠ Text.ofString "-" ∧ ¬ Known arg
  | .plain, arg         => arg = Text.ofString "-" ∨ ¬ Text.ofString "-" <+: arg

theorem Known.dash (h : Known arg) : Text.ofString "-" <+: arg := by
  have hall : ∀ s ∈ ["--", "--filter", "--help", "-c", "-h", "--filter="],
      Text.ofString "-" <+: Text.ofString s := by decide
  rcases h with ⟨s, hs, rfl⟩ | ⟨s, hs, harg⟩
  · exact hall s (List.mem_append_left ["-c", "-h", "--filter="] hs)
  · exact (hall s (List.mem_append_right ["--", "--filter", "--help"] hs)).trans harg

/-- Every argument is written as some word. -/
theorem exists_spelled (arg : Text) : ∃ w : Word, w.Spelled arg := by
  by_cases hknown : Known arg
  · rcases hknown with ⟨s, hs, rfl⟩ | ⟨s, hs, source, rfl⟩
    · simp only [List.mem_cons, List.not_mem_nil, or_false] at hs
      rcases hs with rfl | rfl | rfl
      · exact ⟨.stop, rfl⟩
      · exact ⟨.filterNeeded, rfl⟩
      · exact ⟨.help, .inl rfl⟩
    · simp only [List.mem_cons, List.not_mem_nil, or_false] at hs
      rcases hs with rfl | rfl | rfl
      · by_cases hsource : source = []
        · exact ⟨.filterNext, by rw [hsource]; exact List.append_nil _⟩
        · exact ⟨.filter source, .inl ⟨hsource, rfl⟩⟩
      · exact ⟨.help, .inr (List.prefix_append _ _)⟩
      · exact ⟨.filter source, .inr rfl⟩
  · by_cases hplain : arg = Text.ofString "-" ∨ ¬ Text.ofString "-" <+: arg
    · exact ⟨.plain, hplain⟩
    · obtain ⟨hne, hdash⟩ := not_or.1 hplain
      exact ⟨.invalid, Classical.not_not.1 hdash, hne, hknown⟩

/-- Other words are invalid, or no options. -/
theorem ofText_of_not_known (h : ¬ Known arg) :
    ofText arg = if (arg.dropStart? "-").isSome && arg.length > 1 then .invalid else .plain := by
  obtain ⟨hwhole, hstart⟩ := not_or.1 h
  have hne : ∀ s ∈ ["--", "--filter", "--help"], arg ≠ Text.ofString s :=
    fun s hs e => hwhole ⟨s, hs, e⟩
  have hnone : ∀ s ∈ ["-c", "-h", "--filter="], arg.dropStart? s = none :=
    fun s hs => Text.dropStart?_eq_none fun hp => hstart ⟨s, hs, hp⟩
  have hc : arg ≠ Text.ofString "-c" := fun e => hstart ⟨"-c", by decide, e ▸ List.prefix_refl _⟩
  have hhelp : (arg = Text.ofString "--help" || (arg.dropStart? "-h").isSome) = false := by
    rw [hnone "-h" (by decide), decide_eq_false (hne "--help" (by decide))]
    rfl
  rw [ofText, if_neg hc, hnone "-c" (by decide), hnone "--filter=" (by decide)]
  dsimp only
  rw [if_neg (hne "--filter" (by decide)), hhelp, if_neg Bool.false_ne_true,
    if_neg (hne "--" (by decide))]

/-- **An argument is the word that is written so.** -/
theorem ofText_of_spelled {w : Word} (h : w.Spelled arg) : ofText arg = w := by
  cases w with
  | filterNext => cases h; rfl
  | filterNeeded => cases h; rfl
  | filter source =>
    rcases h with ⟨hs, rfl⟩ | rfl
    · obtain ⟨r, s, rfl⟩ := List.exists_cons_of_ne_nil hs
      rfl
    -- What is left behind `--filter=` only shows once it is known to be empty or not.
    · cases source <;> rfl
  | help =>
    rcases h with rfl | ⟨s, rfl⟩
    · rfl
    · cases s <;> rfl
  | stop => cases h; rfl
  | invalid =>
    obtain ⟨⟨s, rfl⟩, hne, hknown⟩ := h
    have hs : s ≠ [] := by
      rintro rfl
      exact hne rfl
    rw [ofText_of_not_known hknown, Text.dropStart?_append]
    exact if_pos (decide_eq_true (Nat.succ_lt_succ (List.length_pos_iff.2 hs)))
  | plain =>
    rcases h with rfl | h
    · rfl
    · rw [ofText_of_not_known (fun hk => h hk.dash), Text.dropStart?_eq_none h]
      rfl

end Word

/-- An option that gives a filter, in one of its four forms. -/
inductive FilterOption where
  /-- As in `-c source`. -/
  | short (source : Text)
  /-- As in `-csource`. -/
  | joined (source : Text) (filled : source ≠ [])
  /-- As in `--filter source`. -/
  | long (source : Text)
  /-- As in `--filter=source`. -/
  | assigned (source : Text)

namespace FilterOption

def source : FilterOption → Text
  | .short source | .joined source _ | .long source | .assigned source => source

/-- The arguments that make up the option. -/
def arguments : FilterOption → List Text
  | .short source    => [Text.ofString "-c", source]
  | .joined source _ => [Text.ofString "-c" ++ source]
  | .long source     => [Text.ofString "--filter", source]
  | .assigned source => [Text.ofString "--filter=" ++ source]

theorem arguments_ne_nil (g : FilterOption) : g.arguments ≠ [] := by
  cases g <;> exact List.cons_ne_nil _ _

end FilterOption

namespace Options

/-! ### What a command line asks for -/

/-- A filter or a module is chosen. -/
def Chosen (o : Options) : Prop := o.filter.isSome ∨ o.module.isSome

theorem Chosen.not_none {o : Options} (h : o.Chosen) :
    ¬ (o.filter.isNone && o.module.isNone) = true := by
  intro e
  obtain ⟨hf, hm⟩ := Bool.and_eq_true_iff.1 e
  rw [Option.isNone_iff_eq_none] at hf hm
  rcases h with h | h
  · rw [hf] at h; cases h
  · rw [hm] at h; cases h

theorem eq_of_not_chosen {o : Options} (h : ¬ o.Chosen) : o = {} := by
  obtain ⟨filter, module⟩ := o
  obtain ⟨hf, hm⟩ := not_or.1 h
  rw [Option.not_isSome_iff_eq_none] at hf hm
  cases hf
  cases hm
  rfl

/-- `Reads read o reading`: the arguments `read` are options, the end of the options and a module, and none is
the program's own.  They choose `o`, and `reading` tells whether options are read behind them. -/
inductive Reads : List Text → Options → Bool → Prop where
  | nothing : Reads [] {} true
  /-- The last filter counts. -/
  | filter {read : List Text} {o : Options} (g : FilterOption) (h : Reads read o true) :
      Reads (read ++ g.arguments) { o with filter := some g.source } true
  | stop {read : List Text} {o : Options} (h : Reads read o true) :
      Reads (read ++ [Text.ofString "--"]) o false
  /-- Behind the end of the options a module may look like an option. -/
  | module {read : List Text} {reading : Bool} {arg : Text} (h : Reads read {} reading)
      (hp : reading = true → Word.plain.Spelled arg) :
      Reads (read ++ [arg]) { module := some arg } false

/-- What a command line asks for, by the place where reading it ends. -/
inductive Asks : List Text → Choice → Prop where
  | help {read rest : List Text} {o : Options} {arg : Text} (h : Reads read o true)
      (ha : Word.help.Spelled arg) : Asks (read ++ arg :: rest) .help
  | invalid {read rest : List Text} {o : Options} {arg : Text} (h : Reads read o true)
      (ha : Word.invalid.Spelled arg) : Asks (read ++ arg :: rest) (.invalid arg)
  | missing {read : List Text} {o : Options} (h : Reads read o true) :
      Asks (read ++ [Text.ofString "--filter"]) .missing
  /-- All arguments are read. -/
  | nothing {read : List Text} {o : Options} {reading : Bool} (h : Reads read o reading) :
      Asks read (.run o [])
  /-- A `-c` at the end gives the empty filter. -/
  | empty {read : List Text} {o : Options} (h : Reads read o true) :
      Asks (read ++ [Text.ofString "-c"]) (.run { o with filter := some [] } [])
  /-- The first positional argument behind the filter or module is left, with all that follows. -/
  | positional {read after : List Text} {o : Options} {reading : Bool} {first : Text}
      (h : Reads read o reading) (chosen : o.Chosen)
      (hp : reading = true → Word.plain.Spelled first) :
      Asks (read ++ first :: after) (.run o (first :: after))

/-- Options that give filters, and then `--filter` as the last argument. -/
def LacksFilter (args : List Text) : Prop :=
  ∃ gs : List FilterOption, args = gs.flatMap FilterOption.arguments ++ [Text.ofString "--filter"]

/-! ### Reading on -/

/-- A filter option replaces the filter. -/
theorem choose_filter (o : Options) (g : FilterOption) (rest : List Text) :
    choose true o (g.arguments ++ rest) = choose true { o with filter := some g.source } rest := by
  have hword : ∀ {arg source : Text}, (Word.filter source).Spelled arg →
      choose true o (arg :: rest) = choose true { o with filter := some source } rest := by
    intro arg source h
    rw [choose.eq_def]
    dsimp only
    rw [if_pos rfl, Word.ofText_of_spelled h]
  cases g with
  | short source => rfl
  | joined source filled => exact hword (.inl ⟨filled, rfl⟩)
  | long source => rfl
  | assigned source => exact hword (.inr rfl)

theorem choose_plain {reading : Bool} (o : Options) (rest : List Text)
    (hp : reading = true → Word.plain.Spelled arg) :
    choose reading o (arg :: rest) = if o.filter.isNone && o.module.isNone then
      choose false { o with module := some arg } rest else .run o (arg :: rest) := by
  cases reading with
  | false => rfl
  | true =>
    rw [choose.eq_def]
    dsimp only
    rw [if_pos rfl, Word.ofText_of_spelled (hp rfl)]

namespace Reads

variable {read : List Text} {o : Options} {reading : Bool}

/-- **What has been read matters only by what it chooses.** -/
theorem ofArguments_append (h : Reads read o reading) (left : List Text) :
    ofArguments (read ++ left) = choose reading o left := by
  induction h generalizing left with
  | nothing => rfl
  | filter g _ ih => rw [List.append_assoc, ih, choose_filter]
  | stop _ ih =>
    rw [List.append_assoc, ih]
    rfl
  | module _ hp ih =>
    rw [List.append_assoc, ih, List.singleton_append, choose_plain _ _ hp]
    rfl

/-- While options are read, no module is chosen. -/
theorem module_eq_none (h : Reads read o reading) (hr : reading = true) : o.module = none := by
  induction h with
  | nothing => rfl
  | filter _ _ ih => exact ih rfl
  | stop => cases hr
  | module => cases hr

theorem filter_or_module_none (h : Reads read o reading) : o.filter = none ∨ o.module = none := by
  cases h with
  | nothing => exact .inl rfl
  | filter _ h => exact .inr (h.module_eq_none rfl)
  | stop h => exact .inr (h.module_eq_none rfl)
  | module => exact .inl rfl

/-- Only an empty line, and the end of the options alone, choose nothing. -/
theorem chosen_or_bare (h : Reads read o reading) :
    o.Chosen ∨ (reading = true ∧ read = []) ∨ reading = false ∧ read = [Text.ofString "--"] := by
  induction h with
  | nothing => exact .inr (.inl ⟨rfl, rfl⟩)
  | filter => exact .inl (.inl rfl)
  | stop _ ih =>
    rcases ih with chosen | ⟨-, rfl⟩ | ⟨hr, -⟩
    · exact .inl chosen
    · exact .inr (.inr ⟨rfl, rfl⟩)
    · cases hr
  | module => exact .inl (.inr rfl)

theorem append_options (h : Reads read o true) (gs : List FilterOption) :
    ∃ o', Reads (read ++ gs.flatMap FilterOption.arguments) o' true := by
  induction gs generalizing read o with
  | nil => exact ⟨o, by rwa [List.flatMap_nil, List.append_nil]⟩
  | cons g gs ih =>
    obtain ⟨o', h'⟩ := ih (h.filter g)
    exact ⟨o', by rwa [List.flatMap_cons, ← List.append_assoc]⟩

/-- While options are read, nothing but options that give filters has been read. -/
theorem eq_options (h : Reads read o reading) (hr : reading = true) :
    ∃ gs : List FilterOption, read = gs.flatMap FilterOption.arguments := by
  induction h with
  | nothing => exact ⟨[], rfl⟩
  | filter g _ ih =>
    obtain ⟨gs, rfl⟩ := ih rfl
    exact ⟨gs ++ [g], by rw [List.flatMap_append, List.flatMap_singleton]⟩
  | stop => cases hr
  | module => cases hr

/-! ### Reading ends -/

/-- More can be read: one argument at least of those that are left. -/
def Advances (read left : List Text) : Prop :=
  ∃ taken rest o reading, left = taken ++ rest ∧ taken ≠ [] ∧ Reads (read ++ taken) o reading

/-- A positional argument is the program's own, or the module. -/
theorem step_plain (h : Reads read o reading) (rest : List Text)
    (hp : reading = true → Word.plain.Spelled arg) :
    (∃ c, Asks (read ++ arg :: rest) c) ∨ Advances read (arg :: rest) := by
  by_cases chosen : o.Chosen
  · exact .inl ⟨_, .positional h chosen hp⟩
  · cases eq_of_not_chosen chosen
    exact .inr ⟨[arg], rest, _, _, rfl, List.cons_ne_nil _ _, h.module hp⟩

/-- **One step**: reading ends here, or goes on behind one argument or two. -/
theorem step (h : Reads read o reading) (left : List Text) :
    (∃ c, Asks (read ++ left) c) ∨ Advances read left := by
  cases left with
  | nil => exact .inl ⟨_, by rw [List.append_nil]; exact .nothing h⟩
  | cons arg rest =>
    cases reading with
    | false => exact h.step_plain rest fun hr => absurd hr Bool.false_ne_true
    | true =>
      have hfilter : ∀ (g : FilterOption) (rest : List Text), Advances read (g.arguments ++ rest) :=
        fun g rest => ⟨g.arguments, rest, _, _, rfl, g.arguments_ne_nil, h.filter g⟩
      obtain ⟨w, hw⟩ := Word.exists_spelled arg
      cases w with
      | filterNext =>
        cases hw
        cases rest with
        | nil => exact .inl ⟨_, .empty h⟩
        | cons source rest => exact .inr (hfilter (.short source) rest)
      | filterNeeded =>
        cases hw
        cases rest with
        | nil => exact .inl ⟨_, .missing h⟩
        | cons source rest => exact .inr (hfilter (.long source) rest)
      | filter source =>
        rcases hw with ⟨filled, rfl⟩ | rfl
        · exact .inr (hfilter (.joined source filled) rest)
        · exact .inr (hfilter (.assigned source) rest)
      | help => exact .inl ⟨_, .help h hw⟩
      | stop =>
        cases hw
        exact .inr ⟨[_], rest, _, _, rfl, List.cons_ne_nil _ _, h.stop⟩
      | invalid => exact .inl ⟨_, .invalid h hw⟩
      | plain => exact h.step_plain rest fun _ => hw

/-- **Reading ends**, wherever it has come to. -/
theorem exists_asks (h : Reads read o reading) (left : List Text) : ∃ c, Asks (read ++ left) c := by
  -- By the number of arguments that are left.
  induction hn : left.length using Nat.strongRecOn generalizing read o reading left with
  | ind n ih =>
    rcases h.step left with hc | ⟨taken, rest, o', reading', rfl, htaken, h'⟩
    · exact hc
    · have hlt : rest.length < n := by
        have hpos := List.length_pos_iff.2 htaken
        rw [← hn, List.length_append]
        omega
      obtain ⟨c, hc⟩ := ih rest.length hlt h' rest rfl
      exact ⟨c, by rwa [← List.append_assoc]⟩

end Reads

namespace Asks

variable {args rest : List Text} {o : Options} {c : Choice}

/-- **What a line asks for is what is read.** -/
theorem ofArguments_eq (h : Asks args c) : ofArguments args = c := by
  cases h with
  | help h ha =>
    rw [h.ofArguments_append, choose.eq_def]
    dsimp only
    rw [if_pos rfl, Word.ofText_of_spelled ha]
  | invalid h ha =>
    rw [h.ofArguments_append, choose.eq_def]
    dsimp only
    rw [if_pos rfl, Word.ofText_of_spelled ha]
  | missing h =>
    rw [h.ofArguments_append]
    rfl
  | nothing h => rw [← List.append_nil args, h.ofArguments_append, choose]
  | empty h =>
    rw [h.ofArguments_append]
    rfl
  | positional h chosen hp => rw [h.ofArguments_append, choose_plain _ _ hp, if_neg chosen.not_none]

theorem missing_iff : Asks args .missing ↔ LacksFilter args := by
  constructor
  · intro h
    cases h with
    | missing h =>
      obtain ⟨gs, rfl⟩ := h.eq_options rfl
      exact ⟨gs, rfl⟩
  · rintro ⟨gs, rfl⟩
    obtain ⟨o, h⟩ := Reads.nothing.append_options gs
    exact .missing h

theorem mem_of_invalid {option : Text} (h : Asks args (.invalid option)) : option ∈ args := by
  cases h with
  | invalid => exact List.mem_append_right _ List.mem_cons_self

theorem filter_or_module_none (h : Asks args (.run o rest)) : o.filter = none ∨ o.module = none := by
  cases h with
  | nothing h => exact h.filter_or_module_none
  | empty h => exact .inr (h.module_eq_none rfl)
  | positional h => exact h.filter_or_module_none

theorem chosen_or_bare (h : Asks args (.run o rest)) :
    o.Chosen ∨ args = [] ∨ args = [Text.ofString "--"] := by
  cases h with
  | nothing h => exact h.chosen_or_bare.imp_right (Or.imp And.right And.right)
  | empty => exact .inl (.inl rfl)
  | positional _ chosen => exact .inl chosen

/-- What follows the first argument that is left has no say in the choice, and is left too. -/
theorem leaves (h : Asks args (.run o rest)) :
    ∃ read, args = read ++ rest
      ∧ ∀ first ∈ rest.head?, ∀ after, Asks (read ++ first :: after) (.run o (first :: after)) := by
  cases h with
  | nothing h => exact ⟨args, (List.append_nil _).symm, fun _ hf => by cases hf⟩
  | empty h => exact ⟨_, (List.append_nil _).symm, fun _ hf => by cases hf⟩
  | positional h chosen hp =>
    refine ⟨_, rfl, fun first hf after => ?_⟩
    cases hf
    exact .positional h chosen hp

end Asks

theorem ofArguments_eq_iff {args : List Text} {c : Choice} : ofArguments args = c ↔ Asks args c := by
  refine ⟨?_, Asks.ofArguments_eq⟩
  rintro rfl
  obtain ⟨c, h⟩ := Reads.nothing.exists_asks args
  rw [List.nil_append] at h
  rwa [h.ofArguments_eq]

/-- **Every command line is read to an end, and the program's arguments are kept.**  Only a line that lacks
the filter of a `--filter` at its end fails.  Every other asks for help, has an invalid option, or chooses a
filter or a module, never both, and leaves the arguments behind those that were read.  None that follows the
first of these is read as an option, or lost: with others in their place the choice is the same, and they are
left.  Nothing is chosen only by an empty line and by `--` alone.  Each happens exactly where `Asks` has it. -/
theorem ofArguments_safe (args : List Text) :
    (ofArguments args = .missing ↔ LacksFilter args) ∧
    (¬ LacksFilter args →
      ofArguments args = .help ∨ (∃ option ∈ args, ofArguments args = .invalid option) ∨
        ∃ o read rest, args = read ++ rest ∧ ofArguments args = .run o rest ∧
          (∀ first ∈ rest.head?, ∀ after,
            ofArguments (read ++ first :: after) = .run o (first :: after)) ∧
          (o.filter = none ∨ o.module = none) ∧
          (o.Chosen ∨ args = [] ∨ args = [Text.ofString "--"])) ∧
    ∀ c, ofArguments args = c ↔ Asks args c := by
  refine ⟨ofArguments_eq_iff.trans Asks.missing_iff, fun complete => ?_, fun c => ofArguments_eq_iff⟩
  have h : Asks args (ofArguments args) := ofArguments_eq_iff.1 rfl
  cases hc : ofArguments args with
  | help => exact .inl rfl
  | invalid option =>
    rw [hc] at h
    exact .inr (.inl ⟨option, h.mem_of_invalid, rfl⟩)
  | missing =>
    rw [hc] at h
    exact absurd (Asks.missing_iff.1 h) complete
  | run o rest =>
    rw [hc] at h
    obtain ⟨read, hread, hleft⟩ := h.leaves
    refine .inr (.inr ⟨o, read, rest, hread, rfl, ?_, h.filter_or_module_none, h.chosen_or_bare⟩)
    exact fun first hf after => (hleft first hf after).ofArguments_eq

/-- The last of two filters is chosen, and what stands behind `--` is left though it looks like options. -/
theorem ofArguments_safe_stopped :
    ¬ LacksFilter (["-c", "1", "--filter=2", "--", "-h", "-c"].map Text.ofString) ∧
      Asks (["-c", "1", "--filter=2", "--", "-h", "-c"].map Text.ofString)
        (.run { filter := some (Text.ofString "2") } (["-h", "-c"].map Text.ofString)) := by
  refine ⟨fun h => ?_, ((ofArguments_safe _).2.2 _).1 rfl⟩
  have hmissing := (ofArguments_safe _).1.2 h
  cases hmissing

/-- Alone, `--filter` fails for want of a filter; `-c` gives the empty one. -/
theorem filter_option_alone :
    ofArguments [Text.ofString "--filter"] = .missing
      ∧ ofArguments [Text.ofString "-c"] = .run { filter := some [] } [] :=
  ⟨rfl, rfl⟩

end Options

end Session

end FilterShell
