import FilterShell.Proofs.Json.Sequence
import FilterShell.Proofs.Token.Regular

/-!
# Trying longer and longer parts

`retry` reads the first token alone, then the first two, and so on, as long as more tokens could complete a
document; what it has found is cut off, and it starts again behind it.  `readMany` goes through the tokens
once.  Both read the same documents, but for the identities, and end with the same error (`retry_alike`,
`documents_retried`).

Where the pass stands in the middle of a document, `retry` has tried every part up to there, and reading the
part in any other store leads to a state that is alike (`Passes`).
-/

namespace FilterShell.Json

/-- The same documents but for identities, and the same error. -/
def Documents.Alike (ds ds' : Documents) : Prop :=
  List.Forall₂ Document.Alike ds.documents ds'.documents ∧ ds.error = ds'.error

variable {us ts : List Token} {t : Token} {stage stage' : Stage} {fs fs' : List Frame}
  {last : Option Error} {s s' : Store}

/-- In every store the tokens lead into the middle of a document, to a state that is alike. -/
def Passes (us : List Token) (stage : Stage) (fs : List Frame) : Prop :=
  ∀ s, ∃ fs' s', List.Forall₂ Frame.Alike fs fs' ∧ ∀ ts : List Token,
    (readAll false 0 start ((us ++ ts).map .token)).run.run s =
      (readAll false us.length (.reading stage fs') (ts.map .token)).run.run s'

theorem passes_nil : Passes [] .value [] := fun s => ⟨[], s, .nil, fun _ => rfl⟩

/-- One token more is read in every store, if it is in one. -/
theorem Passes.step (h : Passes us stage fs)
    (hstep : ((stepToken us.length t (.reading stage fs)).run.run s).1 = .ok (.reading stage' fs')) :
    Passes (us ++ [t]) stage' fs' := by
  intro s₀
  obtain ⟨fs₀, s₁, hfs, hread⟩ := h s₀
  rcases step_agrees (.reading stage hfs) us.length t s s₁ with ⟨st, st', hst, hst', halike⟩ | ⟨e, -, he, -⟩
  · rw [hstep] at hst
    cases hst
    cases halike with
    | @reading _ _ fs₁ hfs₁ =>
      refine ⟨fs₁, ((stepToken us.length t (.reading stage fs₀)).run.run s₁).2, hfs₁, fun ts => ?_⟩
      rw [List.append_assoc, List.singleton_append, hread, readAll_cons, bind_run (Prod.ext hst' rfl),
        List.length_append, List.length_singleton]
  · rw [hstep] at he
    cases he

/-- What comes of trying one token more. -/
theorem Passes.document (h : Passes us stage fs) (hspace : Unspaced (us ++ [t])) (s s' : Store) :
    (∃ st st', ((stepToken us.length t (.reading stage fs)).run.run s).1 = .ok st ∧ st.Alike st' ∧
      ((document false ((us ++ [t]).map .token)).run.run s').1 = finish (us.length + 1) st') ∨
    ∃ e : Error, e.IsFinal ∧ ((stepToken us.length t (.reading stage fs)).run.run s).1 = .error e ∧
      ((document false ((us ++ [t]).map .token)).run.run s').1 = .error e := by
  obtain ⟨fs₀, s₁, hfs, hread⟩ := h s'
  rw [Json.document, withoutTrailing_unspaced hspace, hread, readAll_cons]
  rcases step_agrees (.reading stage hfs) us.length t s s₁ with ⟨st, st', hst, hst', halike⟩ | ⟨e, hE, he, he'⟩
  · refine .inl ⟨st, st', hst, halike, ?_⟩
    rw [bind_run (Prod.ext hst' rfl)]
    rfl
  · refine .inr ⟨e, hE, he, ?_⟩
    rw [bind_error (Prod.ext he' rfl)]

/-- One turn of the loop, where the tokens before `t` were too few. -/
theorem retry_turn (us : List Token) (t : Token) (ts : List Token) (last : Option Error) (s : Store) :
    (retry last us.length ((us ++ t :: ts).map .token)).run s =
      match (document false ((us ++ [t]).map .token)).run.run s with
      | (.ok d, s₁)    => ((retry last 0 (ts.map .token)).run s₁).map (.cons d) id
      | (.error e, s₁) =>
        if e.isIncomplete then (retry (some e) (us ++ [t]).length ((us ++ [t] ++ ts).map .token)).run s₁
        else ({ documents := [], error := some e }, s₁) := by
  have hsplit : us ++ t :: ts = us ++ [t] ++ ts := by simp
  have hsize : us.length + 1 = (us ++ [t]).length := by simp
  have htake : ((us ++ t :: ts).map Element.token).take (us.length + 1) = (us ++ [t]).map .token := by
    rw [hsplit, hsize, ← List.map_take, List.take_left]
  have hdrop : ((us ++ t :: ts).map Element.token).drop (us.length + 1) = ts.map .token := by
    rw [hsplit, hsize, ← List.map_drop, List.drop_left]
  rw [retry, if_neg (by simp), if_neg (by simp), run_andThen, htake, hdrop]
  rcases (document false ((us ++ [t]).map .token)).run.run s with ⟨e | d, s₁⟩
  · dsimp only
    rw [hsplit, List.length_append, List.length_singleton]
    split <;> rfl
  · rfl

/-- The statement for the tokens that are left in the middle of a document. -/
theorem retry_alike_from (h : Passes us stage fs) (hspace : Unspaced (us ++ ts))
    (hlast : us ≠ [] → ∀ e, finish us.length (.reading stage fs) = .error e → last = some e) (s s' : Store) :
    Documents.Alike ((readMany us.length (.reading stage fs) (ts.map .token)).run s).1
      ((retry last us.length ((us ++ ts).map .token)).run s').1 := by
  induction ts generalizing us stage fs last s s' with
  | nil =>
    cases us with
    | nil =>
      rw [List.append_nil, List.map_nil, retry]
      exact ⟨.nil, rfl⟩
    | cons u us =>
      obtain ⟨e, he⟩ := finish_reading (u :: us).length stage fs
      rw [hlast (List.cons_ne_nil u us) e he, List.append_nil, retry, if_neg (by simp), if_pos (by simp)]
      simp only [List.map_nil, List.length_cons, readMany] at he ⊢
      rw [he]
      exact ⟨.nil, rfl⟩
  | cons t ts ih =>
    have hpart : Unspaced (us ++ [t]) := fun u hu => hspace u (by simp at hu ⊢; tauto)
    have hrest : Unspaced ts := fun u hu => hspace u (by simp [hu])
    rw [retry_turn]
    rcases hdoc : (document false ((us ++ [t]).map .token)).run.run s' with ⟨r, s₁⟩
    rcases hstep : (stepToken us.length t (.reading stage fs)).run.run s with ⟨r₀, s₀⟩
    rcases h.document hpart s s' with ⟨st, st', hst, halike, hr⟩ | ⟨e, hfinal, he, hr⟩
    · rw [hdoc] at hr
      rw [hstep] at hst
      obtain rfl : r₀ = .ok st := hst
      cases halike with
      | done hd =>
        obtain rfl : r = .ok _ := hr
        have hmore : Documents.Alike ((readMany 0 start (ts.map .token)).run s₀).1
            ((retry last 0 (ts.map .token)).run s₁).1 :=
          ih passes_nil hrest (fun h => absurd rfl h) s₀ s₁
        rw [readMany_complete hstep]
        exact ⟨.cons hd hmore.1, hmore.2⟩
      | reading stage' hfs =>
        obtain ⟨e, he, hincomplete⟩ := finish_incomplete (us.length + 1) stage' _
        obtain rfl : r = .error e := hr.trans he
        have hsize : (us ++ [t]).length = us.length + 1 := by simp
        rw [readMany_goes hstep, ← hsize]
        dsimp only
        rw [if_pos hincomplete]
        refine ih (h.step (congrArg Prod.fst hstep)) (by simpa using hspace) (fun _ e' he' => ?_) s₀ s₁
        rw [hsize, finish_alike hfs, he] at he'
        exact congrArg some (Except.error.inj he')
    · rw [hdoc] at hr
      rw [hstep] at he
      obtain rfl : r = .error e := hr
      obtain rfl : r₀ = .error e := he
      rw [readMany_error hstep]
      dsimp only
      rw [if_neg (by simp [show e.isIncomplete = false from hfinal])]
      exact ⟨.nil, rfl⟩

/-- **Trying longer and longer parts reads what one pass reads.** -/
theorem retry_alike (hspace : Unspaced ts) (last : Option Error) (s s' : Store) :
    Documents.Alike ((readMany 0 start (ts.map .token)).run s).1 ((retry last 0 (ts.map .token)).run s').1 :=
  retry_alike_from passes_nil hspace (fun h => absurd rfl h) s s'

/-- Only the last token of a source can be white space at its end. -/
theorem unspaced_scan (source : Text) : ∃ us : List Token,
    withoutTrailing ((Token.scan source).tokens.map .token) = us.map .token ∧ Unspaced us := by
  have hkinds := (Token.scan_regular source).2
  rcases List.eq_nil_or_concat (Token.scan source).tokens with hnil | ⟨us, w, hconcat⟩
  · exact ⟨[], by rw [hnil]; rfl, by rintro _ ⟨⟩⟩
  rw [hconcat, List.concat_eq_append] at hkinds ⊢
  have hus : Unspaced us := fun u hu =>
    (List.pairwise_append.1 hkinds).2.2 u hu w (List.mem_singleton_self w)
  by_cases hw : w.kind = .trailingWhitespace
  · exact ⟨us, withoutTrailing_concat hw, hus⟩
  · exact ⟨us ++ [w], withoutTrailing_eq_self hw,
      List.forall_mem_append.2 ⟨hus, List.forall_mem_singleton.2 hw⟩⟩

/-- **The documents in a text** are those that are found by trying. -/
theorem documents_retried {source : Text} {es : List Element} (hes : elements source = .ok es)
    (last : Option Error) (s s' : Store) :
    Documents.Alike ((documents source).run s).1 ((retry last 0 (withoutTrailing es)).run s').1 := by
  obtain ⟨us, hus, hspace⟩ := unspaced_scan source
  obtain rfl : (Token.scan source).tokens.map .token = es := by
    unfold elements at hes
    dsimp only at hes
    split at hes
    · cases hes
    · exact Except.ok.inj hes
  rw [documents, hes]
  dsimp only
  rw [hus]
  exact retry_alike hspace last s s'

end FilterShell.Json
