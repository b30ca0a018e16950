import FilterShell.Json.Read
import FilterShell.Proofs.Token.Regular
import FilterShell.Proofs.Value.Quiet

/-!
# Making values and reading documents blindly

To make a container is to give it the next identity, and the world grows by it.  Reading JSON makes
containers only.  So it is blind, and what is read is known in the world that has grown (`documents_blind`).
-/

namespace FilterShell

variable {state : State} {d : Document} {t : Token} {fs : List Frame}

variable {α : Type} {W W' : World}

/-! ### Values that are made -/

namespace Value

open Reading

theorem ofText_blind (t : Text) : BlindTry W (ofText t) fun W' v => v.Known W' := by
  unfold ofText
  dsimp only
  split
  · exact .throw
  · exact (fresh_blind (r := .sized 1) rfl).bind fun _ _ _ hi => .pure (.string (.inl hi))

theorem ofItems_blind {items : List Value} (hitems : ∀ v ∈ items, v.Known W) :
    BlindTry W (ofItems items) fun W' v => v.Known W' :=
  (fresh_blind (r := .sized items.length) rfl).bind fun _ _ hle hi =>
    .pure (.array hi fun v hv => (hitems v hv).mono hle)

theorem KnownPair.mono {p : Value × Value} (hle : W ≤ W') (h : KnownPair W p) : KnownPair W' p :=
  ⟨h.1.mono hle, h.2.mono hle⟩

theorem ofPairs_blind {pairs : List (Value × Value)} (hpairs : ∀ p ∈ pairs, KnownPair W p) :
    BlindTry W (ofPairs pairs) fun W' v => v.Known W' :=
  (fresh_blind (r := .object) rfl).bind fun _ _ hle hi =>
    .pure (.object hi (fun p hp => ((hpairs p hp).mono hle).1) fun p hp => ((hpairs p hp).mono hle).2)

/-- A not-a-number gets an identity that no container has. -/
theorem ofDecimal_blind {d : Decimal} (hd : d.isNegative = false) :
    BlindTry W (ofDecimal d) fun W' v => v.Known W' := by
  unfold ofDecimal
  split
  · exact (fresh_blind (r := .free) rfl).bind fun _ i _ _ => .pure (.number i hd)
  · exact .pure (.number 0 hd)

end Value

namespace Json

/-! ### What is held while reading -/

/-- The value of a document is known. -/
def Document.Known (W : World) : Document → Prop
  | .value v => v.Known W
  | _        => True

def Frame.Known (W : World) : Frame → Prop
  | .array items    => ∀ v ∈ items, v.Known W
  | .object pairs _ => ∀ p ∈ pairs, Value.KnownPair W p

def State.Known (W : World) : State → Prop
  | .reading _ fs => ∀ f ∈ fs, f.Known W
  | .done d       => d.Known W

def Beginning.Known (W : World) : Beginning → Prop
  | .whole d  => d.Known W
  | .number d => d.isNegative = false
  | _         => True

theorem Document.Known.mono (hle : W ≤ W') (h : d.Known W) : d.Known W' := by
  cases d with
  | text t => trivial
  | value v => exact Value.Known.mono hle h
  | textless => trivial

theorem Frame.Known.mono {f : Frame} (hle : W ≤ W') (h : f.Known W) : f.Known W' := by
  cases f with
  | array items => exact fun v hv => (h v hv).mono hle
  | object pairs key => exact fun p hp => (h p hp).mono hle

theorem lift_blind {r : Reading α} {P : World → α → Prop} (h : BlindTry W r P) : BlindTry W (lift r) P := by
  intro s s' hs
  obtain ⟨W', hle, hsame, hP, hs'⟩ := h s s' hs
  have hrun : ∀ t, ((lift r).run.run t) = ((r.run.run t).1.mapError Error.fault, (r.run.run t).2) :=
    fun _ => rfl
  rw [hrun, hrun]
  refine ⟨W', hle, congrArg (Except.mapError Error.fault) hsame, fun a ha => ?_, hs'⟩
  cases hr : (r.run.run s).1 with
  | error f =>
    rw [hr] at ha
    cases ha
  | ok b =>
    rw [hr] at ha
    cases ha
    exact hP a hr

theorem Document.toValue_blind (hd : d.Known W) : BlindTry W d.toValue fun W' v => v.Known W' := by
  cases d with
  | text t => exact Value.ofText_blind t
  | value v => exact .pure hd
  | textless => exact .pure .null

theorem keyValue_blind (key : Option Text) : BlindTry W (keyValue key) fun W' v => v.Known W' := by
  cases key with
  | none => exact .pure .null
  | some t => exact Value.ofText_blind t

/-! ### Steps -/

theorem place_blind (hd : d.Known W) (hfs : ∀ f ∈ fs, f.Known W) :
    BlindTry W (place d fs) fun W' st => st.Known W' := by
  cases fs with
  | nil => exact .pure hd
  | cons f fs =>
    obtain ⟨hf, hrest⟩ := List.forall_mem_cons.1 hfs
    cases f with
    | array items =>
      refine (lift_blind (Document.toValue_blind hd)).bind fun W' v hle hv => .pure ?_
      refine List.forall_mem_cons.2 ⟨List.forall_mem_cons.2 ⟨hv, ?_⟩, fun f h => (hrest f h).mono hle⟩
      exact fun w hw => (hf w hw).mono hle
    | object pairs key =>
      refine (lift_blind (keyValue_blind key)).bind fun W₁ k hle₁ hk => ?_
      refine (lift_blind (Document.toValue_blind (hd.mono hle₁))).bind fun W₂ v hle₂ hv => .pure ?_
      have hle := hle₁.trans hle₂
      refine List.forall_mem_cons.2 ⟨List.forall_mem_cons.2 ⟨⟨hk.mono hle₂, hv⟩, ?_⟩,
        fun f h => (hrest f h).mono hle⟩
      exact fun p hp => (hf p hp).mono hle

theorem checkKey_blind (fs : List Frame) : BlindTry W (checkKey fs) fun _ _ => True := by
  unfold checkKey
  split
  · exact (lift_blind (keyValue_blind _)).bind fun _ _ _ _ => .pure trivial
  · exact .pure trivial

theorem begin_blind {b : Beginning} (hb : b.Known W) (hfs : ∀ f ∈ fs, f.Known W) :
    BlindTry W (begin fs b) fun W' st => st.Known W' := by
  cases b with
  | whole d => exact place_blind hb hfs
  | number d =>
    refine (lift_blind (Value.ofDecimal_blind hb)).bind fun W' v hle hv => ?_
    exact place_blind (d := .value v) hv fun f h => (hfs f h).mono hle
  | array =>
    refine (checkKey_blind fs).bind fun W' _ hle _ => .pure ?_
    exact List.forall_mem_cons.2 ⟨by rintro _ ⟨⟩, fun f h => (hfs f h).mono hle⟩
  | object =>
    refine (checkKey_blind fs).bind fun W' _ hle _ => .pure ?_
    exact List.forall_mem_cons.2 ⟨by rintro _ ⟨⟩, fun f h => (hfs f h).mono hle⟩

theorem close_blind (hfs : ∀ f ∈ fs, f.Known W) :
    BlindTry W (close fs) fun W' st => st.Known W' := by
  cases fs with
  | nil => exact .pure (by rintro _ ⟨⟩)
  | cons f fs =>
    obtain ⟨hf, hrest⟩ := List.forall_mem_cons.1 hfs
    cases f with
    | array items =>
      have hitems : ∀ v ∈ items.reverse, v.Known W := fun v hv => hf v (List.mem_reverse.1 hv)
      refine (lift_blind (Value.ofItems_blind hitems)).bind fun W' v hle hv => ?_
      exact place_blind (d := .value v) hv fun f h => (hrest f h).mono hle
    | object pairs key =>
      have hpairs : ∀ p ∈ pairs.reverse, Value.KnownPair W p := fun p hp => hf p (List.mem_reverse.1 hp)
      refine (lift_blind (Value.ofPairs_blind hpairs)).bind fun W' v hle hv => ?_
      exact place_blind (d := .value v) hv fun f h => (hrest f h).mono hle

theorem withKey_known (t : Token) (hfs : ∀ f ∈ fs, f.Known W) : (withKey t fs).Known W := by
  unfold withKey
  split
  · obtain ⟨hf, hfs⟩ := List.forall_mem_cons.1 hfs
    exact List.forall_mem_cons.2 ⟨hf, hfs⟩
  · exact hfs

theorem refuse_blind (d : Document) (b : Beginning) {P : World → State → Prop} :
    BlindTry W (refuse d b) P := by
  unfold refuse
  extract_lets check
  have hcheck : BlindTry W check fun _ _ => True := by
    unfold check
    split
    · exact (lift_blind (Value.ofText_blind _)).bind fun _ _ _ _ => .pure trivial
    · exact .pure trivial
  split
  · exact hcheck.bind fun _ _ _ _ => .throw
  · exact hcheck.bind fun _ _ _ _ => .throw
  · exact hcheck.bind fun _ _ _ _ => .throw
  · exact .throw
  · exact .throw

theorem stepNext_blind (position : Nat) (t : Token) (hfs : ∀ f ∈ fs, f.Known W) :
    BlindTry W (stepNext position t fs) fun W' st => st.Known W' := by
  unfold stepNext
  split <;> split
  · exact close_blind hfs
  · split
    · exact .pure hfs
    · exact .throw
  · exact close_blind hfs
  · split
    · exact .pure hfs
    · exact .throw

/-- What begins with a token of a source is known anywhere. -/
theorem beginning_known {position : Nat} (ht : t.Regular) {b : Beginning}
    (h : beginning position t = .ok b) : b.Known W := by
  unfold beginning at h
  split at h
  · split at h
    · cases h
      exact .bool false
    · split at h
      · cases h
        exact .null
      · split at h
        · cases h
          exact .bool true
        · cases h
  · cases h
  · rename_i w hkind htext
    split at h
    · rename_i x hx
      cases h
      rw [Token.Regular, hkind] at ht
      obtain ⟨u, hu, -, hdigits⟩ := ht
      cases hu.symm.trans htext
      exact Decimal.read?_unsigned (fun r hr => .inl (hdigits r hr)) hx
    · cases h
  · cases h
  · cases h
    trivial
  · cases h
    trivial
  · cases h
    trivial
  · cases h
    trivial
  · cases h

theorem value_blind (position : Nat) (ht : t.Regular) (hfs : ∀ f ∈ fs, f.Known W) :
    BlindTry W (do begin fs (← beginning position t) : Parsing State) fun W' st => st.Known W' := by
  cases h : beginning position t with
  | error e => exact .throw
  | ok b => exact begin_blind (beginning_known ht h) hfs

/-- One token is read blindly. -/
theorem stepToken_blind (position : Nat) (ht : t.Regular) (h : state.Known W) :
    BlindTry W (stepToken position t state) fun W' st => st.Known W' := by
  unfold stepToken
  split
  · cases hb : beginning position t with
    | error e => exact .throw
    | ok b => exact refuse_blind _ b
  · exact value_blind position ht h
  · split
    · exact close_blind h
    · exact value_blind position ht h
  · split
    · exact close_blind h
    · split
      · exact .pure (withKey_known t h)
      · exact .throw
  · split
    · exact .pure (withKey_known t h)
    · exact .throw
  · split
    · exact .pure h
    · exact .throw
  · exact stepNext_blind position t h

/-- The element is a token as a source has it, or no token. -/
def Element.Regular : Element → Prop
  | .token t => t.Regular
  | _        => True

theorem step_blind (position : Nat) (h : state.Known W) {e : Element} (he : e.Regular) :
    BlindTry W (step false position state e) fun W' st => st.Known W' := by
  cases e with
  | token t => exact stepToken_blind position he h
  | filter => exact .throw
  | value v => exact .throw

/-! ### Documents -/

theorem finish_known {position : Nat} (h : state.Known W)
    (hd : finish position state = .ok d) : d.Known W := by
  unfold finish at hd
  split at hd
  · cases hd
    exact h
  · cases hd
  · cases hd
  · cases hd

theorem readMany_blind {es : List Element} (hes : ∀ e ∈ es, e.Regular) (position : Nat)
    (h : state.Known W) :
    Blind W (readMany position state es) fun W' ds => ∀ d ∈ ds.documents, d.Known W' := by
  induction es generalizing W position state with
  | nil =>
    unfold readMany
    split
    · exact .pure (by simp)
    · split
      · rename_i d hd
        exact .pure (by simpa using finish_known h hd)
      · exact .pure (by simp)
  | cons e es ih =>
    obtain ⟨he, hes⟩ := List.forall_mem_cons.1 hes
    unfold readMany
    refine Blind.bind (step_blind position h he) fun W₁ r _ hr => ?_
    split
    · exact .pure (by simp)
    · rename_i d
      have hstart : start.Known W₁ := by rintro _ ⟨⟩
      refine (ih hes 0 hstart).bind fun W₂ rest hle hrest => .pure ?_
      exact List.forall_mem_cons.2 ⟨(show d.Known W₁ from hr _ rfl).mono hle, hrest⟩
    · rename_i state _
      exact ih hes (position + 1) (hr _ rfl)

/-- **Reading documents is blind.** -/
theorem documents_blind (source : Text) :
    Blind W (documents source) fun W' ds => ∀ d ∈ ds.documents, d.Known W' := by
  unfold documents elements
  dsimp only
  split
  · exact .pure (by simp)
  · rename_i es hes
    split at hes
    · cases hes
    · cases hes
      -- The tokens are those of a scan, whose numbers are written by digits.
      refine readMany_blind (fun e he => ?_) 0 (by rintro _ ⟨⟩)
      have hmem : e ∈ (Token.scan source).tokens.map Element.token := by
        unfold withoutTrailing at he
        split at he
        · split at he
          · exact List.mem_of_mem_dropLast he
          · exact he
        · exact he
      obtain ⟨t, ht, rfl⟩ := List.mem_map.1 hmem
      exact (Token.scan_regular source).1 t ht

end Json

end FilterShell
