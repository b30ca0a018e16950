import FilterShell.Session.Print
import FilterShell.Proofs.Eval.BlindFilters

/-!
# Statements that overlap

A semicolon starts its second operand as soon as the first one has given its variables; the first one may go
on beside it.  When a statement starts, those before it can have come anywhere on their way.

An `Outlook` says what a statement may find: how far each container can have been read, and which commands
can have run.  A `Course` runs statements, each in some store that it may find, and prints some of them.
What makes no difference to any statement behind it is to read strings and arrays, to read objects that no
variable holds, and to run commands on which no later one depends (`Outlook.Within.beside`).
-/

namespace FilterShell

deriving instance DecidableEq for Entry, Progress

/-! ### Objects that variables hold -/

namespace Value

mutual

/-- The identities of the objects in a value. -/
def objects : Value → List Nat
  | .array _ items   => itemObjects items
  | .object id pairs => id :: pairObjects pairs
  | _                => []

def itemObjects : List Value → List Nat
  | []     => []
  | v :: r => v.objects ++ itemObjects r

def pairObjects : List (Value × Value) → List Nat
  | []          => []
  | (k, v) :: r => k.objects ++ v.objects ++ pairObjects r

end

theorem mem_itemObjects {items : List Value} {v : Value} (hv : v ∈ items) : v.objects ⊆ itemObjects items := by
  induction items with
  | nil => cases hv
  | cons w items ih =>
    rw [itemObjects]
    rcases List.mem_cons.1 hv with rfl | hv
    · exact List.subset_append_left _ _
    · exact List.subset_append_of_subset_right _ (ih hv)

theorem mem_pairObjects {pairs : List (Value × Value)} {p : Value × Value} (hp : p ∈ pairs) :
    p.1.objects ⊆ pairObjects pairs ∧ p.2.objects ⊆ pairObjects pairs := by
  induction pairs with
  | nil => cases hp
  | cons q pairs ih =>
    rcases List.mem_cons.1 hp with rfl | hp
    · constructor <;> intro i hi <;> simp [pairObjects, hi]
    · obtain ⟨hkey, hvalue⟩ := ih hp
      constructor <;> intro i hi
      · simp [pairObjects, hkey hi]
      · simp [pairObjects, hvalue hi]

end Value

/-- The identities of the objects that variables hold. -/
def Environment.objects (env : Environment) : List Nat :=
  (env.globals ++ env.locals ++ env.formats).flatMap fun x => x.2.flatMap Value.objects

/-! ### Worlds that forget -/

section

variable {W : World} {held : List Nat}

/-- All objects but those that are held are dead. -/
def World.keep (W : World) (held : List Nat) : World where
  next := W.next
  role i := if W.role i = .object ∧ i ∉ held then .dead else W.role i
  bound i hi := by
    rw [W.bound i hi]
    rfl
  start := W.start

theorem World.role_keep (W : World) (held : List Nat) (i : Nat) : (W.keep held).role i =
    if W.role i = .object ∧ i ∉ held then .dead else W.role i := rfl

/-- A value is still known if its objects are held. -/
theorem Value.Known.keep {v : Value} (hv : v.Known W) (h : v.objects ⊆ held) : v.Known (W.keep held) := by
  have hother : ∀ {i r}, W.role i = r → r ≠ .object → (W.keep held).role i = r := by
    intro i r hi hr
    rw [World.role_keep, if_neg (by rw [hi]; exact fun h => hr h.1), hi]
  induction hv with
  | exception e => exact .exception e
  | null => exact .null
  | bool b => exact .bool b
  | number id hd => exact .number id hd
  | string hid =>
    refine .string (hid.imp (fun hid => hother hid ?_) fun hid => hother hid ?_) <;> rintro ⟨⟩
  | array hid _ ih =>
    refine .array (hother hid (by rintro ⟨⟩)) fun v hv => ih v hv fun i hi => h (mem_itemObjects hv hi)
  | @object id pairs hid _ _ ihkeys ihvalues =>
    rw [objects, List.cons_subset] at h
    refine .object ?_ (fun p hp => ?_) fun p hp => ?_
    · rw [World.role_keep, if_neg (by simp [h.1]), hid]
    · exact ihkeys p hp fun i hi => h.2 ((mem_pairObjects hp).1 hi)
    · exact ihvalues p hp fun i hi => h.2 ((mem_pairObjects hp).2 hi)

theorem Environment.Known.keep {env : Environment} (henv : env.Known W) : env.Known (W.keep env.objects) := by
  have hobjects : ∀ x ∈ env.globals ++ env.locals ++ env.formats, ∀ v ∈ x.2, v.objects ⊆ env.objects :=
    fun x hx v hv i hi => List.mem_flatMap.2 ⟨x, hx, List.mem_flatMap.2 ⟨v, hv, hi⟩⟩
  simp only [List.forall_mem_append] at hobjects
  obtain ⟨⟨hglobals, hlocals⟩, hformats⟩ := hobjects
  exact ⟨fun x hx v hv => (henv.globals x hx v hv).keep (hglobals x hx v hv),
    fun x hx v hv => (henv.locals x hx v hv).keep (hlocals x hx v hv),
    fun x hx v hv => (henv.formats x hx v hv).keep (hformats x hx v hv), henv.context, henv.comes⟩

end

/-! ### What a statement may find -/

/-- A container that was read as far as `p`, and will have been read as far as `p₁` by one who is at it, is read
as far as `q` now. -/
structure Progress.OnTheWay (p p₁ q : Progress) : Prop where
  taken : q.taken ≤ p₁.taken
  ended : q.ended = true → p₁.ended = true ∧ q.taken = p₁.taken
  ends  : q.ends = p₁.ends
  same  : p = p₁ → q = p

theorem Progress.OnTheWay.arrived (p p₁ : Progress) : p.OnTheWay p₁ p₁ :=
  ⟨le_rfl, fun h => ⟨h, rfl⟩, rfl, Eq.symm⟩

theorem Progress.Complete.onTheWay {n : Nat} {p p₁ q : Progress} (h : p₁.Complete n) (hq : p.OnTheWay p₁ q) :
    q.Complete n where
  ends := hq.ends.trans h.ends
  taken := hq.taken.trans h.taken
  ended hended := (hq.ended hended).2.trans (h.ended (hq.ended hended).1)

theorem Progress.Unended.onTheWay {n : Nat} {p p₁ q : Progress} (h : p₁.Unended n) (hq : p.OnTheWay p₁ q) :
    q.Unended n where
  ends := hq.ends.trans h.ends
  taken := hq.taken.trans h.taken
  ended := by
    cases hended : q.ended with
    | false => rfl
    | true => exact (hq.ended hended).1.symm.trans h.ended

structure Outlook where
  /-- The next identity to give. -/
  next     : Nat
  /-- How far a container can have been read. -/
  progress : Nat → Progress → Prop
  /-- What the commands that have run can have made of the system. -/
  system   : System → Prop

namespace Outlook

/-- Nothing has been read, and no command has run. -/
def start (system : System) : Outlook := ⟨0, fun _ p => p = {}, (· = system)⟩

/-- The store is one that may be found. -/
structure Admits (o : Outlook) (s : Store) : Prop where
  next     : s.next = o.next
  progress : ∀ i, o.progress i (s.get i)
  system   : o.system s.system

/-- The outlook beside a statement that starts in `s` and will leave `s₁`.  Identities are only names, so those
that it gives count as given. -/
def beside (o : Outlook) (s s₁ : Store) : Outlook where
  next := s₁.next
  progress i p := i < o.next ∧ o.progress i p ∨ (s.get i).OnTheWay (s₁.get i) p
  system x := o.system x ∨ x = s₁.system

theorem admits_start (system : System) : (start system).Admits { system } := ⟨rfl, fun _ => rfl, rfl⟩

/-- The statement may have come to its end. -/
theorem admits_beside (o : Outlook) (s s₁ : Store) : (o.beside s s₁).Admits s₁ :=
  ⟨rfl, fun _ => .inr (.arrived _ _), .inr rfl⟩

end Outlook

namespace Session

/-- **Statements in turn**, each started as soon as the one before it has given its variables, and printed or
not. -/
inductive Course : Outlook → Environment → List Filter → Outlook → Environment → Prop
  | done (o : Outlook) (env : Environment) : Course o env [] o env
  | run {o o' : Outlook} {env env' : Environment} {f : Filter} {fs : List Filter} {s s₁ : Store} {r : Run}
      (henv : env.isComplete) (hs : o.Admits s) (hrun : (f.run { env }).run s = (r, s₁))
      (hrest : Course (o.beside s s₁) r.env fs o' env') : Course o env (f :: fs) o' env'
  | print {o o' : Outlook} {env env' env₁ : Environment} {f : Filter} {fs : List Filter} {s s₁ : Store}
      {lines : Lines} (henv : env.isComplete) (hs : o.Admits s)
      (hprint : (Session.print f { env }).run s = ((lines, env₁), s₁))
      (hrest : Course (o.beside s s₁) env₁ fs o' env') : Course o env (f :: fs) o' env'

end Session

/-! ### What makes no difference -/

/-- What comes of a command does not depend on the commands before it. -/
def System.IsForgetful (x : System) : Prop := ∀ before before', x.start before = x.start before'

namespace Outlook

variable {o : Outlook} {W W₁ : World} {s s₁ s₂ t t₁ t₂ : Store}

/-- Nothing that the world knows tells the store from one that may be found. -/
structure Within (o : Outlook) (W : World) (s : Store) : Prop where
  next   : s.next = W.next
  next'  : o.next = W.next
  holds  : ∀ i p, o.progress i p → (W.role i).Holds (s.get i) p
  start  : s.system.start = W.start
  system : ∀ x, o.system x → x.start = W.start ∧
    ∀ later, W.start (later ++ s.system.history) = W.start (later ++ x.history)

theorem Within.alike (h : o.Within W s) (ht : o.Admits t) : s.Alike W t where
  next := h.next
  next' := ht.next.trans h.next'
  holds i := h.holds i _ (ht.progress i)
  start := h.start
  start' := (h.system _ ht.system).1
  system := (h.system _ ht.system).2

variable (h : o.Within W s) (ht : o.Admits t) (hle : W ≤ W₁) {i : Nat} {p : Progress}

include h hle

/-- What the statements before this one may have done is compared in the world before it. -/
theorem Within.holds_before (hp : i < o.next ∧ o.progress i p) : (W₁.role i).Holds (s.get i) p := by
  rw [hle.role i (h.next' ▸ hp.1)]
  exact h.holds i p hp.2

include ht

/-- Of an object the stores before the statement say the same; it may be new. -/
theorem Within.same_before (hi : W₁.role i = .object) : t.get i = s.get i := by
  have hboth := (h.alike ht).holds i
  rcases World.role_before hle i with hrole | hrole
  · rw [hrole, hi] at hboth
    exact hboth.symm
  · rw [hrole] at hboth
    exact hboth.2.trans hboth.1.symm

variable (h₁ : s₁.Alike W₁ t₁) (h₂ : s₂.Alike W₁ t₂)

include h₁

/-- An object in which the statement does not read on is found as it was. -/
theorem Within.object_beside (hrole : W₁.role i = .object) (hkept : s₁.get i = s.get i)
    (hp : (o.beside t t₁).progress i p) : s.get i = p := by
  rcases hp with hp | hp
  · have hbefore := h.holds_before hle hp
    rw [hrole] at hbefore
    exact hbefore
  · have hend := h₁.holds i
    rw [hrole] at hend
    have hsame := h.same_before ht hle hrole
    have hunread : t.get i = t₁.get i := hsame.trans (hkept.symm.trans hend)
    exact hsame.symm.trans (hp.same hunread).symm

include h₂

/-- How far anything else has been read is not told apart. -/
theorem Within.holds_beside (hobject : W₁.role i ≠ .object) (hp : (o.beside t t₁).progress i p) :
    (W₁.role i).Holds (s₂.get i) p := by
  have hbefore := h.holds_before hle (i := i) (p := p)
  have hend := h₁.holds i
  have hend₂ := h₂.holds i
  cases hrole : W₁.role i with
  | free =>
    rw [hrole] at hend hend₂ hbefore
    refine ⟨hend₂.1, ?_⟩
    rcases hp with hp | hp
    · exact (hbefore hp).2
    · have hfree : W.role i = .free := (World.role_before hle i).elim (·.trans hrole) id
      have hunread := (h.alike ht).holds i
      rw [hfree] at hunread
      exact (hp.same (hunread.2.trans hend.2.symm)).trans hunread.2
  | sized n | unended n =>
    rw [hrole] at hend hend₂ hbefore
    refine ⟨hend₂.1, ?_⟩
    rcases hp with hp | hp
    · exact (hbefore hp).2
    · exact hend.2.onTheWay hp
  | object => exact absurd hrole hobject
  | dead => trivial

/-- **What a statement does beside the next one makes no difference**, as far as it reads on in no object that
is held and runs no command on which a later one depends.  It takes `s` to `s₁` and `t` to `t₁`; once it is
printed too, they are `s₂` and `t₂`. -/
theorem Within.beside (hsystem : s₂.system = s₁.system) {held : List Nat}
    (hkept : ∀ i ∈ held, s₁.get i = s.get i ∧ s₂.get i = s.get i)
    (hcommands : s.system.IsForgetful ∨ s₂.system.history = s.system.history) :
    (o.beside t t₁).Within (W₁.keep held) s₂ where
  next := h₂.next
  next' := h₁.next'
  start := h₂.start
  system x hx := by
    rcases hx with hx | rfl
    · obtain ⟨hstart, hlater⟩ := h.system x hx
      refine ⟨hstart.trans hle.start.symm, fun later => ?_⟩
      change W₁.start _ = W₁.start _
      rw [hle.start]
      rcases hcommands with hforgetful | hhistory
      · rw [← h.start]
        exact hforgetful _ _
      · rw [hhistory]
        exact hlater later
    · exact ⟨h₁.start', hsystem ▸ h₁.system⟩
  holds i p hp := by
    rw [World.role_keep]
    by_cases hobject : W₁.role i = .object
    · by_cases hheld : i ∈ held
      · rw [if_neg (by simp [hheld]), hobject]
        obtain ⟨hkept₁, hkept₂⟩ := hkept i hheld
        exact hkept₂.trans (h.object_beside ht hle h₁ hobject hkept₁ hp)
      · rw [if_pos ⟨hobject, hheld⟩]
        trivial
    · rw [if_neg fun hdead => hobject hdead.1]
      exact h.holds_beside ht hle h₁ h₂ hobject hp

end Outlook

end FilterShell
