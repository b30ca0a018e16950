import FilterShell.Session.Shell
import FilterShell.Proofs.Filter.Failing
import FilterShell.Proofs.Outcome
import FilterShell.Proofs.Session.Course

/-!
# A session is one program

The interactive shell runs its lines one after the other, prints what each line outputs, and waits for its
end.  A program that runs the same filters in turn prints only the outputs of the last one, and does not wait
for the others.  So the session reads its values further than the program does.  Of strings and arrays this
makes no difference; an object can be hashed in one and not in the other (`printed_object_differs`).

If every line before the last one ends, reads on in no object that a variable holds, and runs no command on
which a later one depends, the last line prints the same, and leaves the same variables
(`session_is_program`).  This holds whatever the statements find of each other (`Course`), and if lines are
still at work when the next one comes.
-/

namespace FilterShell

variable {e : ParseError}

deriving instance DecidableEq for Invocation

/-! ### Filters in turn -/

namespace Filter

/-- The filters with semicolons between them. -/
def inTurn : List Filter → Filter
  | []      => .empty
  | f :: fs => fs.foldl (.binary .semicolon) f

/-- What filters in turn give on a system, and the store they leave, if they start with nothing. -/
def performed (system : System) (fs : List Filter) : Run × Store := ((inTurn fs).run {}).run { system }

variable {system : System} {fs : List Filter}

/-- One more filter runs in the variables that the others leave. -/
theorem performed_concat (henv : (performed system fs).1.env.isComplete) {f : Filter} {result : Run}
    {store : Store}
    (hrun : (f.run { env := (performed system fs).1.env }).run (performed system fs).2 = (result, store)) :
    ∃ last, performed system (fs ++ [f]) = (last, store) ∧ last.outputs = result.outputs ∧
      last.closed = result.closed ∧ (result.closed → last.env = result.env) := by
  cases fs with
  | nil => exact ⟨result, hrun, rfl, rfl, fun _ => rfl⟩
  | cons g gs =>
    have hsemicolon : performed system (g :: gs ++ [f]) =
        (Program.semicolon (inTurn (g :: gs)).run f.run {}).run { system } := by
      rw [performed, List.cons_append, inTurn, List.foldl_append]
      rfl
    rcases hfirst : performed system (g :: gs) with ⟨first, s₁⟩
    rw [hfirst] at henv hrun
    have hleft : ((inTurn (g :: gs)).run {}).run { system } = (first, s₁) := hfirst
    have hsecond : (f.run { Stream.next {} first.rest with env := first.env }).run s₁ = (result, store) := hrun
    rw [hsemicolon, Program.semicolon, run_andThen, show Stream.copy {} = {} from rfl, hleft]
    dsimp only
    rw [if_neg (by simpa using henv), run_andThen, hsecond]
    dsimp only
    split
    · rename_i hopen
      exact ⟨_, rfl, rfl, by simpa [Run.waiting] using hopen, fun hclosed => by simp [hclosed] at hopen⟩
    · exact ⟨_, rfl, rfl, rfl, fun _ => rfl⟩

end Filter

/-! ### Sessions -/

namespace Session

/-- The filters of the lines that can be read. -/
def readable (lines : List Text) : List Filter :=
  lines.filterMap fun line => (Filter.ofSource .everything false line).toOption

/-- The line has an error of syntax. -/
def isRefused (line : Text) : Bool :=
  match Filter.ofSource .everything false line with
  | .error e => e.isSyntax
  | .ok _    => false

theorem isRefused_error {line : Text}
    (h : Filter.ofSource .everything false line = .error e) : isRefused line = e.isSyntax := by
  rw [isRefused, h]

/-- What lines and variables are, unless a fault keeps the variables away. -/
def Agrees (lines : Lines) (env : Environment) (found : Lines × Environment) : Prop :=
  found.1 = lines ∧ (lines.fault = none → found.2 = env)

theorem ended_of_printed {result : Run} {s : Store} (h : ((printed result).run s).1.fault = none) :
    result.closed ∧ result.env.hasNames := by
  have hfault : ((printed result).run s).1.fault = (((linesOf .plain result.outputs).run s).1.fault <|>
      if result.closed && result.env.hasNames then none else some Fault.nothingWaiting) := rfl
  rw [hfault] at h
  by_contra hopen
  rw [if_neg (by simpa using hopen)] at h
  cases hlines : ((linesOf .plain result.outputs).run s).1.fault <;> rw [hlines] at h <;> cases h

/-- Printing what is known is still. -/
theorem printed_still {W : World} {result : Run} (h : result.Known W) :
    Still W (printed result) fun _ => True :=
  (linesOf_still h.outputs).bind fun _ _ => .pure trivial

theorem system_printed (result : Run) (s : Store) : ((printed result).run s).2.system = s.system :=
  system_linesOf result.outputs s

namespace Repl

/-- What is kept after lines, or the fault that ends the shell. -/
def after (r : Repl) (lines : List Text) : Except Fault Repl :=
  lines.foldlM (fun r line => (r.run line).next) r

/-- What a filter gives in the session, and the store it leaves, before anything is printed. -/
def perform (r : Repl) (f : Filter) : Run × Store :=
  (f.run { env := { r.env with context := {} } }).run r.store

/-- What is printed of a filter, and the store after that. -/
def shown (r : Repl) (f : Filter) : Lines × Store := (printed (r.perform f).1).run (r.perform f).2

/-- The session after a filter. -/
def next (r : Repl) (f : Filter) : Repl := { env := (r.perform f).1.env, store := (r.shown f).2 }

/-- Every line has an error of syntax, or what it runs satisfies a condition in the session. -/
def everyLine (condition : Repl → Filter → Bool) (r : Repl) : List Text → Bool
  | []           => true
  | line :: rest => match Filter.ofSource .everything false line with
    | .error e => e.isSyntax && everyLine condition r rest
    | .ok f    => condition r f && everyLine condition (r.next f) rest

/-- The filter ends and is printed, and neither reads on in an object that a variable holds then. -/
def isSteady (r : Repl) (f : Filter) : Bool :=
  (r.shown f).1.fault.isNone && (r.perform f).1.env.objects.all fun i =>
    (r.perform f).2.get i = r.store.get i && (r.shown f).2.get i = r.store.get i

/-- The filter runs no command. -/
def isQuiet (r : Repl) (f : Filter) : Bool := (r.shown f).2.system.history = r.store.system.history

theorem after_cons (r : Repl) (line : Text) (rest : List Text) :
    r.after (line :: rest) = (r.run line).next >>= fun r => r.after rest := by
  rw [after, List.foldlM_cons]
  rfl

theorem after_append (r : Repl) (lines more : List Text) :
    r.after (lines ++ more) = r.after lines >>= fun r => r.after more := List.foldlM_append

theorem next_refused (r : Repl) {line : Text} (h : isRefused line) : (r.run line).next = .ok r := by
  unfold isRefused at h
  split at h
  · rename_i e hread
    obtain ⟨message, hmessage⟩ := Filter.rejected_of_isSyntax h ""
    unfold run
    split
    · rfl
    · rw [hread]
      dsimp only
      rw [hmessage]
  · cases h

theorem after_refused (r : Repl) {lines : List Text} (h : ∀ line ∈ lines, isRefused line) :
    r.after lines = .ok r := by
  induction lines with
  | nil => rfl
  | cons line lines ih =>
    obtain ⟨hline, hlines⟩ := List.forall_mem_cons.1 h
    rw [after_cons, next_refused r hline]
    exact ih hlines

/-- The line that interrupts is no program. -/
theorem interrupt_unread : (Filter.ofSource .everything false interrupt).toOption = none := by
  decide +kernel

/-- A line that can be read prints the outputs of its filter. -/
theorem run_read (r : Repl) {line : Text} {f : Filter} (h : Filter.ofSource .everything false line = .ok f) :
    r.run line =
      { output := (r.shown f).1.text
        next   := match (r.shown f).1.fault with
          | some e => .error e
          | none   => .ok (r.next f) } := by
  have hline : line ≠ interrupt := by
    rintro rfl
    have hnone := interrupt_unread
    rw [h] at hnone
    cases hnone
  rw [run, if_neg hline, h]
  rfl

theorem after_read (r : Repl) {line : Text} {f : Filter} (h : Filter.ofSource .everything false line = .ok f)
    (hfault : (r.shown f).1.fault = none) (lines : List Text) :
    r.after (line :: lines) = (r.next f).after lines := by
  rw [after_cons, run_read r h, hfault]
  rfl

/-! ### Lines and filters in turn -/

/-- The session has these variables, and a store that cannot be told from any that may be found. -/
structure Follows (r : Repl) (o : Outlook) (env : Environment) : Prop where
  same     : r.env = env
  complete : env.isComplete
  within   : ∃ W, o.Within W r.store ∧ env.Known W

theorem follows_start (system : System) : Follows { store := { system } } (.start system) {} where
  same := rfl
  complete := rfl
  within := by
    refine ⟨⟨0, fun _ => .free, fun _ _ => rfl, system.start⟩, ⟨rfl, rfl, ?_, rfl, ?_⟩,
      Environment.known_empty⟩
    · rintro i _ rfl
      exact ⟨rfl, rfl⟩
    · rintro _ rfl
      exact ⟨rfl, fun _ => rfl⟩

theorem isSteady_iff {r : Repl} {f : Filter} : r.isSteady f ↔ (r.shown f).1.fault = none ∧
    ∀ i ∈ (r.perform f).1.env.objects,
      (r.perform f).2.get i = r.store.get i ∧ (r.shown f).2.get i = r.store.get i := by
  simp [isSteady]

section

variable {r : Repl} {o : Outlook} {env : Environment} {f : Filter} {s s₁ : Store} {result : Run}

theorem Follows.perform (h : r.Follows o env) (f : Filter) : r.perform f = (f.run { env }).run r.store := by
  obtain ⟨W, -, hknown⟩ := h.within
  rw [Repl.perform, h.same, ← hknown.context]

/-- What a filter gives in a store that may be found, it gives in the session. -/
theorem Follows.blind (h : r.Follows o env) (hf : f.Digital) (hs : o.Admits s)
    (hrun : (f.run { env }).run s = (result, s₁)) : ∃ W W₁, o.Within W r.store ∧ W ≤ W₁ ∧
      (r.perform f).1 = result ∧ result.Known W₁ ∧ (r.perform f).2.Alike W₁ s₁ := by
  obtain ⟨W, hwithin, hknown⟩ := h.within
  have hinput : Stream.Known W { env } := ⟨by simp, hknown⟩
  obtain ⟨W₁, hle, hsame, hresult, hafter⟩ := Filter.run_blind hf hinput _ _ (hwithin.alike hs)
  rw [hrun, ← h.perform f] at hsame hafter
  rw [← h.perform f] at hresult
  have hsame : (r.perform f).1 = result := hsame.symm
  exact ⟨W, W₁, hwithin, hle, hsame, hsame ▸ hresult, hafter⟩

/-- One more filter is run, in the session and in a store that may be found: it gives the same, and whether or
not it is printed there, the session still follows. -/
theorem Follows.step (h : r.Follows o env) (hf : f.Digital) (hsteady : r.isSteady f)
    (hcommands : r.store.system.IsForgetful ∨ r.isQuiet f) (hs : o.Admits s)
    (hrun : (f.run { env }).run s = (result, s₁)) :
    result.closed ∧ (r.next f).store.system.start = r.store.system.start ∧
      (r.next f).Follows (o.beside s s₁) result.env ∧
      (r.next f).Follows (o.beside s ((printed result).run s₁).2) result.env := by
  obtain ⟨W, W₁, hwithin, hle, hsame, hresult, hafter⟩ := h.blind hf hs hrun
  obtain ⟨hfault, hkept⟩ := isSteady_iff.1 hsteady
  obtain ⟨hclosed, hnames⟩ := ended_of_printed hfault
  rw [hsame] at hclosed hnames
  have hcomplete := hresult.env.isComplete hnames
  -- Printing is still, on both sides.
  obtain ⟨W₂, -, -, ⟨hworld, -⟩, hprinted⟩ := printed_still hresult _ _ hafter
  have hshown : (printed result).run (r.perform f).2 = r.shown f := by rw [Repl.shown, hsame]
  rw [hworld, hshown] at hprinted
  have hsystem : (r.shown f).2.system = (r.perform f).2.system := system_printed _ _
  have hhistory := hcommands.imp_right fun h : r.isQuiet f => (of_decide_eq_true h :)
  have hrest : ∀ {b t₁ : Store}, b.Alike W₁ t₁ → (r.shown f).2.system = b.system →
      (∀ i ∈ result.env.objects, b.get i = r.store.get i) →
      (r.next f).Follows (o.beside s t₁) result.env := by
    intro b t₁ hb hsystem hunread
    refine ⟨congrArg Run.env hsame, hcomplete, _, ?_, hresult.env.keep⟩
    refine hwithin.beside hs hle hb hprinted hsystem (fun i hi => ⟨hunread i hi, ?_⟩) hhistory
    exact (hkept i (hsame ▸ hi)).2
  refine ⟨hclosed, ?_, hrest hafter hsystem fun i hi => (hkept i (hsame ▸ hi)).1,
    hrest hprinted rfl fun i hi => (hkept i (hsame ▸ hi)).2⟩
  exact hprinted.start.trans (hle.start.trans hwithin.start.symm)

/-- The last filter prints what it prints in the session, and leaves the same variables. -/
theorem Follows.print (h : r.Follows o env) (hf : f.Digital) (hs : o.Admits s) :
    ((Session.print f { env }).run s).1 = ((r.shown f).1, (r.perform f).1.env) := by
  rcases hrun : (f.run { env }).run s with ⟨result, s₁⟩
  obtain ⟨W, W₁, -, -, hsame, hresult, hafter⟩ := h.blind hf hs hrun
  obtain ⟨W₂, -, hprinted, -, -⟩ := printed_still hresult _ _ hafter
  have hprint : ((Session.print f { env }).run s).1 = (((printed result).run s₁).1, result.env) := by
    rw [Session.print, run_andThen, hrun]
    rfl
  rw [hprint, hprinted, Repl.shown, hsame]

end

/-! ### Whole sessions -/

/-- No line makes a difference to those behind it but by its variables. -/
structure Apart (r : Repl) (lines : List Text) : Prop where
  steady   : r.everyLine isSteady lines
  commands : r.store.system.IsForgetful ∨ r.everyLine isQuiet lines

section

variable {r : Repl} {o : Outlook} {env : Environment} {line : Text} {lines : List Text}

theorem Apart.refused (h : r.Apart (line :: lines))
    (hread : Filter.ofSource .everything false line = .error e) : isRefused line ∧ r.Apart lines := by
  obtain ⟨hsteady, hcommands⟩ := h
  simp only [everyLine, hread, Bool.and_eq_true] at hsteady hcommands
  exact ⟨(isRefused_error hread).trans hsteady.1, hsteady.2, hcommands.imp_right And.right⟩

/-- A line that can be read is run in the session and in a store that may be found, and those behind it are
still apart. -/
theorem Apart.step (h : r.Apart (line :: lines)) {f : Filter}
    (hread : Filter.ofSource .everything false line = .ok f) (hfollows : r.Follows o env) {s s₁ : Store}
    (hs : o.Admits s) {result : Run} (hrun : (f.run { env }).run s = (result, s₁)) :
    result.closed ∧ (r.next f).Apart lines ∧ r.after (line :: lines) = (r.next f).after lines ∧
      (r.next f).Follows (o.beside s s₁) result.env ∧
      (r.next f).Follows (o.beside s ((printed result).run s₁).2) result.env := by
  obtain ⟨hsteady, hcommands⟩ := h
  simp only [everyLine, hread, Bool.and_eq_true] at hsteady hcommands
  obtain ⟨hclosed, hstart, hnext⟩ :=
    hfollows.step (Filter.digital_ofSource hread) hsteady.1 (hcommands.imp_right And.left) hs hrun
  refine ⟨hclosed, ⟨hsteady.2, hcommands.imp (fun h => ?_) And.right⟩, ?_, hnext⟩
  · rwa [System.IsForgetful, hstart]
  · exact after_read r hread (isSteady_iff.1 hsteady.1).1 lines

theorem readable_error (hread : Filter.ofSource .everything false line = .error e) :
    readable (line :: lines) = readable lines := by
  simp [readable, hread, Except.toOption]

theorem readable_ok {f : Filter} (hread : Filter.ofSource .everything false line = .ok f) :
    readable (line :: lines) = f :: readable lines := by
  simp [readable, hread, Except.toOption]

/-- **The session follows every course** of the filters of its lines. -/
theorem Follows.course (h : r.Follows o env) (hapart : r.Apart lines) {o' : Outlook} {env' : Environment}
    (hcourse : Course o env (readable lines) o' env') : ∃ r', r.after lines = .ok r' ∧ r'.Follows o' env' := by
  induction lines generalizing r o env with
  | nil =>
    cases hcourse with
    | done => exact ⟨r, rfl, h⟩
  | cons line lines ih =>
    cases hread : Filter.ofSource .everything false line with
    | error e =>
      obtain ⟨hrefused, hapart⟩ := hapart.refused hread
      rw [after_cons, next_refused r hrefused]
      exact ih h hapart (readable_error hread ▸ hcourse)
    | ok f =>
      rw [readable_ok hread] at hcourse
      cases hcourse with
      | run _ hs hrun hrest =>
        obtain ⟨-, hapart, hafter, hfollows, -⟩ := hapart.step hread h hs hrun
        rw [hafter]
        exact ih hfollows hapart hrest
      | @print _ _ _ _ _ _ _ s _ _ _ hs hprint hrest =>
        rcases hrun : (f.run { env }).run s with ⟨result, s₁⟩
        rw [Session.print, run_andThen, hrun] at hprint
        cases hprint
        obtain ⟨-, hapart, hafter, -, hfollows⟩ := hapart.step hread h hs hrun
        rw [hafter]
        exact ih hfollows hapart hrest

/-- The session follows the filters of its lines in turn. -/
theorem Follows.performed {system : System} {fs : List Filter}
    (h : r.Follows o (Filter.performed system fs).1.env) (hs : o.Admits (Filter.performed system fs).2)
    (hapart : r.Apart lines) : ∃ r' o', r.after lines = .ok r' ∧
      r'.Follows o' (Filter.performed system (fs ++ readable lines)).1.env ∧
      o'.Admits (Filter.performed system (fs ++ readable lines)).2 := by
  induction lines generalizing r o fs with
  | nil =>
    rw [show readable [] = [] from rfl, List.append_nil]
    exact ⟨r, o, rfl, h, hs⟩
  | cons line lines ih =>
    cases hread : Filter.ofSource .everything false line with
    | error e =>
      obtain ⟨hrefused, hapart⟩ := hapart.refused hread
      rw [after_cons, next_refused r hrefused, readable_error hread]
      exact ih h hs hapart
    | ok f =>
      rcases hrun : (f.run { env := (Filter.performed system fs).1.env }).run
        (Filter.performed system fs).2 with ⟨result, s₁⟩
      obtain ⟨hclosed, hapart, hafter, hfollows, -⟩ := hapart.step hread h hs hrun
      obtain ⟨last, hlast, -, -, henv⟩ := Filter.performed_concat h.complete hrun
      have hfound := Outlook.admits_beside o (Filter.performed system fs).2 s₁
      rw [← henv hclosed] at hfollows
      rw [← show (Filter.performed system (fs ++ [f])).1 = last by rw [hlast]] at hfollows
      rw [← show (Filter.performed system (fs ++ [f])).2 = s₁ by rw [hlast]] at hfollows hfound
      rw [hafter, readable_ok hread, ← List.singleton_append, ← List.append_assoc]
      exact ih hfollows hfound hapart

end

end Repl

/-- The program prints what the last of its filters prints, and leaves the variables that it leaves. -/
theorem agrees_concat {system : System} {fs : List Filter} (f : Filter)
    (henv : (Filter.performed system fs).1.env.isComplete) {lines : Lines} {env : Environment}
    (h : ((print f { env := (Filter.performed system fs).1.env }).run (Filter.performed system fs).2).1 =
      (lines, env)) : Agrees lines env ((print (.inTurn (fs ++ [f])) {}).run { system }).1 := by
  rcases hrun : (f.run { env := (Filter.performed system fs).1.env }).run (Filter.performed system fs).2
    with ⟨result, s₁⟩
  obtain ⟨last, hlast, houtputs, hclosed, hsame⟩ := Filter.performed_concat henv hrun
  have hprogram : ((print (.inTurn (fs ++ [f])) {}).run { system }).1 =
      (((printed last).run s₁).1, last.env) := by
    have hlast : ((Filter.inTurn (fs ++ [f])).run {}).run { system } = (last, s₁) := hlast
    rw [print, run_andThen, hlast]
    rfl
  rw [print, run_andThen, hrun] at h
  cases h
  rw [hprogram]
  -- Where the last filter never ends, nothing is known of the variables, but the lines are the same.
  have hlines : (printed last).run s₁ = (printed result).run s₁ := by
    rw [printed, printed, houtputs, hclosed]
    cases hended : result.closed with
    | true => rw [hsame hended]
    | false => simp
  exact ⟨congrArg Prod.fst hlines, fun hfault => hsame (ended_of_printed hfault).1⟩

/-- **A session is one program.**  Let every line before the last one end and read on in no object that a
variable holds, and let no command depend on commands before it, or no line before the last one run any.  Then
the last line prints what the program prints that runs the filters of all lines in turn, and the variables after
the session are those of the program; if its outputs cannot be printed or never end, the same fault ends both.
So it is whatever each filter finds of those before it, and whichever of them are printed.  Lines with an error
of syntax change nothing, before the last line and behind it. -/
theorem session_is_program (system : System) (earlier later : List Text) (last : Text) (f : Filter)
    (hsteady : Repl.everyLine Repl.isSteady { store := { system } } earlier)
    (hcommands : system.IsForgetful ∨ Repl.everyLine Repl.isQuiet { store := { system } } earlier)
    (hlast : Filter.ofSource .everything false last = .ok f) (hlater : ∀ line ∈ later, isRefused line) :
    ∃ r lines env, Repl.after { store := { system } } earlier = .ok r ∧
      (r.run last).output = lines.text ∧
      (Repl.after { store := { system } } (earlier ++ last :: later)).map Repl.env =
        (match lines.fault with
        | some e => .error e
        | none   => .ok env) ∧
      Agrees lines env ((print (.inTurn (readable earlier ++ [f])) {}).run { system }).1 ∧
      ∀ o before s, Course (.start system) {} (readable earlier) o before → o.Admits s →
        Agrees lines env ((print f { env := before }).run s).1 := by
  have hstart := Repl.follows_start system
  have hapart : Repl.Apart { store := { system } } earlier := ⟨hsteady, hcommands⟩
  have hdigital := Filter.digital_ofSource hlast
  have hnothing : (Filter.performed system []).1.env = {} := rfl
  obtain ⟨r, o, hafter, hfollows, hs⟩ :=
    Repl.Follows.performed (hnothing ▸ hstart) (Outlook.admits_start system) hapart
  rw [List.nil_append] at hfollows hs
  have hrun := Repl.run_read r hlast
  refine ⟨r, (r.shown f).1, (r.perform f).1.env, hafter, by rw [hrun], ?_, ?_, fun o before s hcourse hs => ?_⟩
  · have hsession : Repl.after { store := { system } } (earlier ++ last :: later) =
        (r.run last).next >>= fun r => r.after later := by
      rw [Repl.after_append, hafter]
      exact Repl.after_cons r last later
    rw [hsession, hrun]
    cases hfault : (r.shown f).1.fault with
    | some e => rfl
    | none => exact congrArg (Except.map Repl.env) (Repl.after_refused (r.next f) hlater)
  · exact agrees_concat f hfollows.complete (hfollows.print hdigital hs)
  · obtain ⟨r', hafter', hfollows'⟩ := hstart.course hapart hcourse
    cases hafter.symm.trans hafter'
    rw [hfollows'.print hdigital hs]
    exact ⟨rfl, fun _ => rfl⟩

/-- A session that prints strings and arrays, runs a command and binds an object, with a line that cannot be
read. -/
def mixedLines : List Text :=
  ["s = \"ab\"", "[s, 1.5]", ")", "n = !\"one\"", "o = \x7b\"k\": s\x7d", "s + \"c\""]

/-- A system where every command answers with the number one. -/
def oneSystem : System where
  start _ _ _ := .started fun _ => .ok [49, 10]

/-- The theorem at this session, with a line that prints the object as the last one that can be read. -/
theorem session_is_program_mixed :
    ∃ f r lines env, Filter.ofSource .everything false "o, n, s" = .ok f ∧
      Repl.after { store := { system := oneSystem } } mixedLines = .ok r ∧
      (r.run "o, n, s").output = lines.text ∧
      (Repl.after { store := { system := oneSystem } } (mixedLines ++ (["o, n, s", "("] : List Text))).map
        Repl.env = (match lines.fault with
        | some e => .error e
        | none   => .ok env) ∧
      Agrees lines env ((print (.inTurn (readable mixedLines ++ [f])) {}).run { system := oneSystem }).1 ∧
      ∀ o before s, Course (.start oneSystem) {} (readable mixedLines) o before → o.Admits s →
        Agrees lines env ((print f { env := before }).run s).1 := by
  have hok : (Filter.ofSource .everything false "o, n, s").isOk := by decide +kernel
  obtain ⟨f, hread⟩ := exists_of_isOk hok
  obtain ⟨r, lines, env, h⟩ := session_is_program oneSystem mixedLines ["("] "o, n, s" f (by decide +kernel)
    (.inl fun _ _ => rfl) hread (by decide +kernel)
  exact ⟨f, r, lines, env, hread, h⟩

/-- Once an object has been printed, it can be the key of an entry; in the program it has not been printed, and
it cannot. -/
theorem printed_object_differs :
    (Repl.after {} ["o = \x7b\"a\": 1\x7d", "o"]).toOption.map (fun r => (r.run "\x7bo: 1\x7d").output) =
        some (Text.ofString "\x7b\x7b\"a\": 1\x7d: 1\x7d\n") ∧
      let printed := ((print (.inTurn (readable ["o = \x7b\"a\": 1\x7d", "o", "\x7bo: 1\x7d"])) {}).run {}).1.1
      printed.text = [] ∧ printed.fault.isSome := by
  decide +kernel

-- A line that never ends stops the session; the program goes on, as the variables are there.
example :
    (Repl.after {} ["[1] | .10000000000000000000000000000000"]).isOk = false ∧
      let shown := ((print (.inTurn (readable ["[1] | .10000000000000000000000000000000", "1"])) {}).run {}).1.1
      shown.text = Text.ofString "1\n" ∧ shown.fault.isNone := by
  decide +kernel

end Session

end FilterShell
